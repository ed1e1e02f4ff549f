import ByteMatch.Discovery
import Mathlib.Data.List.Nodup
import Mathlib.Logic.Relation

/-!
# Exploration finds exactly what can be reached

`Discovery.explore` expands a stack of discovered elements and counts fuel down while it does so.
Both users of it, the epsilon closures and the union of two automata, rely on its finding all that
can be reached and nothing else:

* `Discovery.Lawful` says what is asked of the set in which the discoveries are kept;
* `Discovery.Frontier` is the invariant of the loop: what is discovered can be reached, and what is
  discovered and no longer on the stack has all its successors discovered;
* `Discovery.mem_explore_iff` is the result.

Fuel enters through `Frontier.fuel_le` alone. Each round takes one element from the stack and moves
some elements from the undiscovered ones onto it, so the stack and the undiscovered elements together
lose exactly one element a round, and the loop cannot run dry before the stack does.
-/

namespace ByteMatch.Discovery

variable {σ β : Type}

/-- `y` can be reached from `x` along the edges `next`. -/
abbrev Reaches (next : β → List β) : β → β → Prop := Relation.ReflTransGen fun x y => y ∈ next x

/-- **Lawful insertion.** The set lists its members without repetition, and inserting an element of
`bound` puts it behind the others and says so exactly if it was not a member. -/
structure Lawful (insert : σ → β → Bool × σ) (members : σ → List β) (bound : List β) : Prop where
  nodup : ∀ seen, (members seen).Nodup
  new_iff : ∀ seen, ∀ x ∈ bound, (insert seen x).1 = true ↔ x ∉ members seen
  members_of_new : ∀ seen x, (insert seen x).1 = true →
    members (insert seen x).2 = members seen ++ [x]
  members_of_old : ∀ seen x, (insert seen x).1 = false →
    members (insert seen x).2 = members seen

variable {insert : σ → β → Bool × σ} {members : σ → List β} {bound : List β}

/-- One round of discoveries: the new elements are put behind the members and on top of the stack,
and after it all of `xs` are discovered. -/
theorem enter_spec (law : Lawful insert members bound) (xs : List β) (hxs : ∀ x ∈ xs, x ∈ bound)
    (seen : σ) (pending : List β) :
    ∃ new, members (enter insert xs seen pending).1 = members seen ++ new ∧
      (enter insert xs seen pending).2 = new.reverse ++ pending ∧
      (∀ x ∈ new, x ∈ xs) ∧ ∀ x ∈ xs, x ∈ members (enter insert xs seen pending).1 := by
  induction xs generalizing seen pending with
  | nil => exact ⟨[], by simp [enter]⟩
  | cons x xs ih =>
    have hx : x ∈ bound := hxs x List.mem_cons_self
    have hrest : ∀ y ∈ xs, y ∈ bound := fun y hy => hxs y (List.mem_cons_of_mem _ hy)
    rw [enter]
    split
    · -- `x` is new: it goes behind the members and onto the stack
      next seen' heq =>
      have hnew : members seen' = members seen ++ [x] := by
        have := law.members_of_new seen x (by rw [heq])
        rwa [heq] at this
      obtain ⟨new, hmem, hpending, hsub, hall⟩ := ih hrest seen' (x :: pending)
      refine ⟨x :: new, ?_, ?_, ?_, ?_⟩
      · rw [hmem, hnew, List.append_assoc, List.singleton_append]
      · rw [hpending, List.reverse_cons, List.append_assoc, List.singleton_append]
      · intro y hy
        rcases List.mem_cons.1 hy with rfl | hy
        · exact List.mem_cons_self
        · exact List.mem_cons_of_mem _ (hsub y hy)
      · intro y hy
        rcases List.mem_cons.1 hy with rfl | hy
        · rw [hmem, hnew]
          simp
        · exact hall y hy
    · -- `x` is a member already: nothing changes
      next seen' heq =>
      have hold : members seen' = members seen := by
        have := law.members_of_old seen x (by rw [heq])
        rwa [heq] at this
      obtain ⟨new, hmem, hpending, hsub, hall⟩ := ih hrest seen' pending
      refine ⟨new, by rw [hmem, hold], hpending, fun y hy => List.mem_cons_of_mem _ (hsub y hy), ?_⟩
      intro y hy
      rcases List.mem_cons.1 hy with rfl | hy
      · have hin : y ∈ members seen := by
          by_contra hout
          have := (law.new_iff seen y hx).2 hout
          rw [heq] at this
          exact Bool.false_ne_true this
        rw [hmem, hold]
        exact List.mem_append_left _ hin
      · exact hall y hy

/-- **The invariant of the loop**, with `fuel` rounds still to go. -/
structure Frontier (members : σ → List β) (next : β → List β) (bound : List β) (start : β)
    (fuel : Nat) (seen : σ) (pending : List β) : Prop where
  start_mem : start ∈ members seen
  /-- Only what can be reached is discovered. -/
  reached : ∀ x ∈ members seen, Reaches next start x
  inside : ∀ x ∈ members seen, x ∈ bound
  pending_mem : ∀ x ∈ pending, x ∈ members seen
  /-- What is no longer on the stack has been expanded. -/
  expanded : ∀ x ∈ members seen, x ∉ pending → ∀ y ∈ next x, y ∈ members seen
  /-- The stack and the undiscovered elements are no more than the rounds left. -/
  fuel_le : pending.length + bound.length ≤ fuel + (members seen).length

section Loop

variable {next : β → List β} {start : β}

/-- One round keeps the invariant. -/
theorem Frontier.expand (law : Lawful insert members bound)
    (hnext : ∀ x ∈ bound, ∀ y ∈ next x, y ∈ bound) {fuel : Nat} {seen : σ} {x : β}
    {pending : List β} (h : Frontier members next bound start (fuel + 1) seen (x :: pending)) :
    Frontier members next bound start fuel (enter insert (next x) seen pending).1
      (enter insert (next x) seen pending).2 := by
  have hx : x ∈ members seen := h.pending_mem x List.mem_cons_self
  have hin : ∀ y ∈ next x, y ∈ bound := hnext x (h.inside x hx)
  obtain ⟨new, hmem, hpending, hsub, hall⟩ := enter_spec law (next x) hin seen pending
  have hsplit : ∀ {y}, y ∈ members (enter insert (next x) seen pending).1 →
      y ∈ members seen ∨ y ∈ new := by
    intro y hy
    rw [hmem] at hy
    exact List.mem_append.1 hy
  have hkeep : ∀ {y}, y ∈ members seen → y ∈ members (enter insert (next x) seen pending).1 := by
    intro y hy
    rw [hmem]
    exact List.mem_append_left _ hy
  refine ⟨hkeep h.start_mem, ?_, ?_, ?_, ?_, ?_⟩
  · -- what is new is one edge further than `x`
    intro y hy
    rcases hsplit hy with hy | hy
    · exact h.reached y hy
    · exact (h.reached x hx).tail (hsub y hy)
  · -- no edge leaves `bound`
    intro y hy
    rcases hsplit hy with hy | hy
    · exact h.inside y hy
    · exact hin y (hsub y hy)
  · -- what is pushed has been discovered in this round
    intro y hy
    rw [hpending] at hy
    rcases List.mem_append.1 hy with hy | hy
    · exact hall y (hsub y (List.mem_reverse.1 hy))
    · exact hkeep (h.pending_mem y (List.mem_cons_of_mem _ hy))
  · -- the element just expanded is the only one to leave the stack
    intro y hy hout z hz
    have hynew : y ∉ new := fun hy' => hout (by simp [hpending, hy'])
    have hyold : y ∈ members seen := (hsplit hy).resolve_right hynew
    by_cases hyx : y = x
    · subst hyx
      exact hall z hz
    · refine hkeep (h.expanded y hyold ?_ z hz)
      intro hmem'
      rcases List.mem_cons.1 hmem' with rfl | hmem'
      · exact hyx rfl
      · exact hout (by simp [hpending, hmem'])
  · -- the new elements count on both sides, and `x` has left the stack
    have hfuel := h.fuel_le
    rw [hmem, hpending]
    simp only [List.length_append, List.length_reverse, List.length_cons] at hfuel ⊢
    omega

/-- Without fuel the stack is empty: the members are distinct elements of `bound`. -/
theorem Frontier.pending_eq_nil (law : Lawful insert members bound) {seen : σ} {pending : List β}
    (h : Frontier members next bound start 0 seen pending) : pending = [] := by
  have hle : (members seen).length ≤ bound.length :=
    (law.nodup seen).length_le_of_subset fun x hx => h.inside x hx
  have hfuel := h.fuel_le
  exact List.eq_nil_of_length_eq_zero (by omega)

/-- A loop in its invariant stops with an empty stack. -/
theorem run_frontier (law : Lawful insert members bound)
    (hnext : ∀ x ∈ bound, ∀ y ∈ next x, y ∈ bound) (fuel : Nat) (seen : σ) (pending : List β)
    (h : Frontier members next bound start fuel seen pending) :
    ∃ left, Frontier members next bound start left (run insert next fuel seen pending) [] := by
  induction fuel generalizing seen pending with
  | zero =>
    obtain rfl := h.pending_eq_nil law
    exact ⟨0, h⟩
  | succ fuel ih =>
    cases pending with
    | nil => exact ⟨fuel + 1, h⟩
    | cons x pending => exact ih _ _ (h.expand law hnext)

/-- A loop in its invariant has stopped by itself: more fuel changes nothing. -/
theorem run_add (law : Lawful insert members bound)
    (hnext : ∀ x ∈ bound, ∀ y ∈ next x, y ∈ bound) (fuel more : Nat) (seen : σ) (pending : List β)
    (h : Frontier members next bound start fuel seen pending) :
    run insert next (fuel + more) seen pending = run insert next fuel seen pending := by
  induction fuel generalizing seen pending with
  | zero =>
    obtain rfl := h.pending_eq_nil law
    cases more with
    | zero => rfl
    | succ more => rfl
  | succ fuel ih =>
    rw [Nat.add_right_comm]
    cases pending with
    | nil => rfl
    | cons x pending => exact ih _ _ (h.expand law hnext)

/-- What is discovered when the stack is empty is all that can be reached. -/
theorem Frontier.mem_iff {fuel : Nat} {seen : σ}
    (h : Frontier members next bound start fuel seen []) (x : β) :
    x ∈ members seen ↔ Reaches next start x := by
  refine ⟨h.reached x, fun hx => ?_⟩
  induction hx with
  | refl => exact h.start_mem
  | tail _ hy ih => exact h.expanded _ ih (by simp) _ hy

/-- The start is discovered first. -/
theorem members_insert_start (law : Lawful insert members bound) {empty : σ}
    (hempty : members empty = []) (hstart : start ∈ bound) :
    members (insert empty start).2 = [start] := by
  have hnew : (insert empty start).1 = true := (law.new_iff empty start hstart).2 (by simp [hempty])
  rw [law.members_of_new empty start hnew, hempty, List.nil_append]

/-- What is inserted later stands behind the members. -/
theorem members_prefix_insert (law : Lawful insert members bound) (seen : σ) (x : β) :
    members seen <+: members (insert seen x).2 := by
  cases hx : (insert seen x).1 with
  | true =>
    rw [law.members_of_new seen x hx]
    exact List.prefix_append _ _
  | false =>
    have hsame := law.members_of_old seen x hx
    exact hsame ▸ List.prefix_rfl

/-- What is discovered later stands behind the members. -/
theorem members_prefix_run (law : Lawful insert members bound) (next : β → List β) (fuel : Nat)
    (seen : σ) (pending : List β) : members seen <+: members (run insert next fuel seen pending) := by
  have hinsert : ∀ later x, members seen <+: members later →
      members seen <+: members (insert later x).2 := by
    intro later x h
    exact h.trans (members_prefix_insert law later x)
  exact run_keeps hinsert fuel seen pending List.prefix_rfl

/-- What is discovered later stands behind the start. -/
theorem start_prefix_explore (law : Lawful insert members bound) (next : β → List β) (fuel : Nat)
    {empty : σ} (hempty : members empty = []) (hstart : start ∈ bound) :
    [start] <+: members (explore insert next fuel empty start) := by
  have hfirst := members_prefix_run law next fuel (insert empty start).2 [start]
  rw [members_insert_start law hempty hstart] at hfirst
  exact hfirst

/-- The invariant holds when the loop begins: the start is the only member and lies on the stack. -/
private theorem frontier_insert_start (law : Lawful insert members bound) {fuel : Nat}
    (hfuel : bound.length ≤ fuel) {empty : σ} (hempty : members empty = [])
    (hstart : start ∈ bound) :
    Frontier members next bound start fuel (insert empty start).2 [start] := by
  have hmem := members_insert_start law hempty hstart
  refine ⟨by simp [hmem], ?_, ?_, by simp [hmem], ?_, ?_⟩
  · intro y hy
    obtain rfl : y = start := by simpa [hmem] using hy
    exact Relation.ReflTransGen.refl
  · intro y hy
    obtain rfl : y = start := by simpa [hmem] using hy
    exact hstart
  · intro y hy hout
    exact absurd (by simpa [hmem] using hy) hout
  · rw [hmem]
    simp only [List.length_singleton]
    omega

/-- **Exploration is exact.** With fuel for every element of `bound`, which no edge leaves, the
elements discovered are those that can be reached from the start. -/
theorem mem_explore_iff (law : Lawful insert members bound)
    (hnext : ∀ x ∈ bound, ∀ y ∈ next x, y ∈ bound) {fuel : Nat} (hfuel : bound.length ≤ fuel)
    {empty : σ} (hempty : members empty = []) (hstart : start ∈ bound) (x : β) :
    x ∈ members (explore insert next fuel empty start) ↔ Reaches next start x := by
  obtain ⟨left, hlast⟩ :=
    run_frontier law hnext fuel _ _ (frontier_insert_start law hfuel hempty hstart)
  exact hlast.mem_iff x

/-- Fuel for every element of `bound` is enough: more of it discovers nothing else. -/
theorem explore_add (law : Lawful insert members bound)
    (hnext : ∀ x ∈ bound, ∀ y ∈ next x, y ∈ bound) {fuel : Nat} (hfuel : bound.length ≤ fuel)
    {empty : σ} (hempty : members empty = []) (hstart : start ∈ bound) (more : Nat) :
    explore insert next (fuel + more) empty start = explore insert next fuel empty start :=
  run_add law hnext fuel more _ _ (frontier_insert_start law hfuel hempty hstart)

end Loop

end ByteMatch.Discovery
