import ByteMatch.Proofs.Exploration
import Mathlib.Logic.Function.Iterate

/-!
# Exploration round by round

`Discovery.run` counts fuel down and stops without fuel or with an empty stack, whichever comes first,
so by itself it does not show that the stack ever becomes empty. `Discovery.afterRounds` is the same
loop without fuel: what has been discovered and what waits on the stack after so many rounds.

What settles it is a balance. As long as there is a stack, every round takes one element from it, and
each element discovered is put on it once; so what has been discovered are the elements that wait and
those that were taken, one for each round (`Discovery.Counted`). Hence the loop stops by itself, after
just as many rounds as there is to discover (`Discovery.rounds_of_explore`).
-/

namespace ByteMatch.Discovery

variable {σ β : Type}

/-- One round: the element on top of the stack is expanded, if there is one. -/
def round (insert : σ → β → Bool × σ) (next : β → List β) : σ × List β → σ × List β
  | (seen, []) => (seen, [])
  | (seen, x :: pending) => enter insert (next x) seen pending

/-- What is discovered, and what waits on the stack, after `n` rounds from `start`. -/
def afterRounds (insert : σ → β → Bool × σ) (next : β → List β) (empty : σ) (start : β) (n : Nat) :
    σ × List β :=
  (round insert next)^[n] ((insert empty start).2, [start])

variable {insert : σ → β → Bool × σ} {members : σ → List β} {bound : List β} {next : β → List β}
  {empty : σ} {start : β}

/-- With fuel for `n` rounds the loop does what `n` rounds do. -/
theorem run_eq_iterate (n : Nat) (seen : σ) (pending : List β) :
    run insert next n seen pending = ((round insert next)^[n] (seen, pending)).1 := by
  induction n generalizing seen pending with
  | zero => rfl
  | succ n ih =>
    rw [Function.iterate_succ_apply]
    cases pending with
    | nil =>
      -- nothing is left to be done, in this round or in any later one
      rw [round, Function.iterate_fixed rfl, run]
    | cons x pending => exact ih _ _

theorem explore_eq_afterRounds (n : Nat) :
    explore insert next n empty start = (afterRounds insert next empty start n).1 :=
  run_eq_iterate n _ _

/-- Further rounds go on from what is discovered and what waits. -/
theorem afterRounds_add (k n : Nat) :
    (afterRounds insert next empty start (k + n)).1 =
      run insert next k (afterRounds insert next empty start n).1
        (afterRounds insert next empty start n).2 := by
  rw [run_eq_iterate, afterRounds, afterRounds, Function.iterate_add_apply]

/-- Once the stack is empty, nothing changes any more. -/
theorem afterRounds_eq_of_le {m n : Nat} (hmn : m ≤ n)
    (hstop : (afterRounds insert next empty start m).2 = []) :
    afterRounds insert next empty start n = afterRounds insert next empty start m := by
  obtain ⟨k, rfl⟩ := Nat.exists_eq_add_of_le' hmn
  have hfixed : round insert next (afterRounds insert next empty start m) =
      afterRounds insert next empty start m := by
    generalize afterRounds insert next empty start m = state at hstop
    obtain ⟨seen, pending⟩ := state
    obtain rfl : pending = [] := hstop
    rfl
  calc afterRounds insert next empty start (k + m)
      = (round insert next)^[k] (afterRounds insert next empty start m) :=
        Function.iterate_add_apply _ k m _
    _ = afterRounds insert next empty start m := Function.iterate_fixed hfixed k

/-- **The balance after `n` rounds.** No edge has left `bound`, and what is discovered are the elements
taken from the stack, one a round, and those that wait; or there was nothing left to take. -/
structure Counted (members : σ → List β) (bound : List β) (n : Nat) (state : σ × List β) : Prop where
  inside : ∀ x ∈ members state.1, x ∈ bound
  pending_inside : ∀ x ∈ state.2, x ∈ bound
  length_eq : (members state.1).length = n + state.2.length ∨
    state.2 = [] ∧ (members state.1).length ≤ n

/-- One more round keeps the balance. -/
theorem Counted.round (law : Lawful insert members bound)
    (hnext : ∀ x ∈ bound, ∀ y ∈ next x, y ∈ bound) {n : Nat} {state : σ × List β}
    (h : Counted members bound n state) :
    Counted members bound (n + 1) (round insert next state) := by
  obtain ⟨seen, pending⟩ := state
  have hlength := h.length_eq
  cases pending with
  | nil =>
    -- the loop has stopped, and the round is one too many
    refine ⟨h.inside, h.pending_inside, .inr ⟨rfl, ?_⟩⟩
    simp only [List.length_nil] at hlength
    show (members seen).length ≤ n + 1
    omega
  | cons x pending =>
    have hx : x ∈ bound := h.pending_inside x List.mem_cons_self
    obtain ⟨new, hmembers, hpending, hsub, -⟩ := enter_spec law (next x) (hnext x hx) seen pending
    have hnew : ∀ y ∈ new, y ∈ bound := fun y hy => hnext x hx y (hsub y hy)
    refine ⟨?_, ?_, .inl ?_⟩
    · intro y hy
      rw [Discovery.round, hmembers] at hy
      exact (List.mem_append.1 hy).elim (h.inside y) (hnew y)
    · intro y hy
      rw [Discovery.round, hpending] at hy
      rcases List.mem_append.1 hy with hy | hy
      · exact hnew y (List.mem_reverse.1 hy)
      · exact h.pending_inside y (List.mem_cons_of_mem _ hy)
    · -- `x` has left the stack, and what is new is on both sides
      rw [Discovery.round, hmembers, hpending]
      simp only [List.length_append, List.length_reverse, List.length_cons, reduceCtorEq,
        false_and, or_false] at hlength ⊢
      omega

section Rounds

variable (law : Lawful insert members bound) (hnext : ∀ x ∈ bound, ∀ y ∈ next x, y ∈ bound)
  (hempty : members empty = []) (hstart : start ∈ bound)

include law hnext hempty hstart

/-- The balance holds after any number of rounds. -/
theorem counted_afterRounds (n : Nat) :
    Counted members bound n (afterRounds insert next empty start n) := by
  induction n with
  | zero =>
    have hmembers := members_insert_start law hempty hstart
    refine ⟨?_, ?_, .inl ?_⟩
    · intro x hx
      obtain rfl : x = start := by simpa [afterRounds, hmembers] using hx
      exact hstart
    · intro x hx
      obtain rfl : x = start := List.mem_singleton.1 hx
      exact hstart
    · simp [afterRounds, hmembers]
  | succ n ih =>
    rw [afterRounds, Function.iterate_succ_apply']
    exact ih.round law hnext

/-- After a round for each element of `bound` the stack is empty. -/
private theorem pending_eq_nil_of_length_le {n : Nat} (hn : bound.length ≤ n) :
    (afterRounds insert next empty start n).2 = [] := by
  have hcounted := counted_afterRounds law hnext hempty hstart n
  have hle : (members (afterRounds insert next empty start n).1).length ≤ bound.length :=
    (law.nodup _).length_le_of_subset hcounted.inside
  rcases hcounted.length_eq with hlength | ⟨hstop, -⟩
  · exact List.eq_nil_of_length_eq_zero (by omega)
  · exact hstop

/-- **The loop stops after as many rounds as there is to discover**, not earlier and not later, and
has discovered by then what an exploration with enough fuel discovers. -/
theorem rounds_of_explore {fuel : Nat} (hfuel : bound.length ≤ fuel) (n : Nat) :
    ((afterRounds insert next empty start n).2 = [] ↔
      (members (explore insert next fuel empty start)).length ≤ n) ∧
    ((afterRounds insert next empty start n).2 = [] →
      (afterRounds insert next empty start n).1 = explore insert next fuel empty start) := by
  have hcounted := counted_afterRounds law hnext hempty hstart n
  have hlast := pending_eq_nil_of_length_le law hnext hempty hstart hfuel
  have hsame : (afterRounds insert next empty start n).2 = [] →
      (afterRounds insert next empty start n).1 = explore insert next fuel empty start := by
    intro hstop
    rw [explore_eq_afterRounds]
    -- the later one of the two numbers of rounds gives the same as either
    rcases Nat.le_total n fuel with hle | hle
    · rw [afterRounds_eq_of_le hle hstop]
    · rw [afterRounds_eq_of_le hle hlast]
  refine ⟨⟨?_, ?_⟩, hsame⟩
  · intro hstop
    rw [← hsame hstop]
    have hlength := hcounted.length_eq
    rw [hstop, List.length_nil] at hlength
    omega
  · intro hle
    rcases hcounted.length_eq with hlength | ⟨hstop, -⟩
    · rcases Nat.le_total fuel n with hmore | hmore
      · rw [afterRounds_eq_of_le hmore hlast]
        exact hlast
      · -- what is discovered by now stays discovered
        obtain ⟨k, rfl⟩ := Nat.exists_eq_add_of_le' hmore
        rw [explore_eq_afterRounds, afterRounds_add] at hle
        have hlength_le := (members_prefix_run law next k (afterRounds insert next empty start n).1
          (afterRounds insert next empty start n).2).length_le
        exact List.eq_nil_of_length_eq_zero (by omega)
    · exact hstop

end Rounds

end ByteMatch.Discovery
