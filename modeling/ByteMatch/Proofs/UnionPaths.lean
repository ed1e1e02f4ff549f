import ByteMatch.Proofs.Rows
import ByteMatch.Proofs.Traversal
import ByteMatch.Union

/-!
# The union of two automata yields what either of them yields

The states of a union stand for pairs of states, numbered as they are discovered. The proof looks
through the numbers at the pairs:

* `Union.mem_pairs_iff`: the pairs that are numbered are those that can be reached;
* `Union.step_eq`, `Union.mem_epsilonTargets_iff`: a state of the union leads to the states that stand
  for the pairs which follow its own pair;
* `Union.path_project`: a path of the union is a path on each side on which its last pair has a state;
* `Union.path_lift`: a path on one side is that side of a path of the union.

An epsilon edge of one part drops the other part, so a path of the union need not project to both
sides from its first pair on; it does so backwards from its last pair, and that is how
`Union.path_project` is stated. `Automaton.yields_union_iff` puts the two directions together, and
`UnionTree.yields_iff` carries the result to any way of folding a list of automata.
-/

namespace ByteMatch

open Discovery

variable {α : Type}

/-- **Numberings are lawful**: an insertion numbers what has no number yet. -/
theorem Numbering.lawful_insert {β : Type} [DecidableEq β] (bound : List β) :
    Lawful (Numbering.insert (β := β)) (fun numbering => numbering.items.toList) bound where
  nodup numbering := numbering.nodup
  new_iff numbering x _ := by rw [Numbering.insert_fst, Array.mem_toList_iff]
  members_of_new numbering x h := by
    rw [Numbering.toList_insert, if_neg ((Numbering.insert_fst numbering x).1 h)]
  members_of_old numbering x h := by
    -- nothing was new, so there was a number already
    have hx : x ∈ numbering.items := by
      by_contra hout
      rw [(Numbering.insert_fst numbering x).2 hout] at h
      exact Bool.false_ne_true h.symm
    rw [Numbering.toList_insert, if_pos hx]

namespace Automaton

/-! ### One side of a pair -/

/-- Where `byte` leads from a state that may be missing. -/
def stepFrom (fa : Automaton α) (state : Option StateId) (byte : UInt8) : Option StateId :=
  state.bind (fa.step · byte)

/-- Steps from a state that may be missing keep inside as well. -/
theorem StepsInside.of_stepFrom {fa : Automaton α} (inside : fa.StepsInside)
    {state : Option StateId} {byte : UInt8} {n : StateId} (h : fa.stepFrom state byte = some n) :
    InAlphabet byte ∧ n < fa.size := by
  obtain ⟨s, -, hstep⟩ := Option.bind_eq_some_iff.1 h
  exact inside s byte n hstep

theorem StepsInside.stepFrom_eq_none {fa : Automaton α} (inside : fa.StepsInside) {byte : UInt8}
    (hbyte : ¬ InAlphabet byte) (state : Option StateId) : fa.stepFrom state byte = none :=
  Option.eq_none_iff_forall_ne_some.2 fun _ hn => hbyte (inside.of_stepFrom hn).1

theorem target_tableAt (fa : Automaton α) (state : Option StateId) (byte : UInt8) :
    (fa.tableAt state).target byte.toNat = fa.stepFrom state byte := by
  have hempty : Table.empty.target byte.toNat = none := Table.step_empty byte
  cases state with
  | none => exact hempty
  | some s =>
    simp only [tableAt, stepFrom, Option.bind_some, step]
    cases fa.nodes[s]? with
    | none => exact hempty
    | some node => rfl

theorem mem_epsilons_tableAt {fa : Automaton α} {state : Option StateId} {e : StateId} :
    e ∈ (fa.tableAt state).epsilons ↔ ∃ s, state = some s ∧ e ∈ epsilonTargets fa.nodes s := by
  cases state with
  | none => simp [tableAt, Table.empty, Table.uniform]
  | some s =>
    simp only [tableAt, Option.bind_some, Option.some.injEq, exists_eq_left', epsilonTargets]
    cases fa.nodes[s]? with
    | none => simp [Table.empty, Table.uniform]
    | some node => rfl

theorem mem_payloadsAt {fa : Automaton α} {state : Option StateId} {p : α} :
    p ∈ fa.payloadsAt state ↔ ∃ s, state = some s ∧ p ∈ fa.payloads s := by
  cases state with
  | none => simp [payloadsAt]
  | some s => simp [payloadsAt]

/-- Every state that a step leads to has been named. -/
private theorem stepFrom_mem_stateNames (fa : Automaton α) (state : Option StateId) (byte : UInt8) :
    fa.stepFrom state byte ∈ fa.stateNames := by
  unfold stateNames
  cases hstep : fa.stepFrom state byte with
  | none => exact List.mem_append_left _ List.mem_cons_self
  | some n =>
    -- the row of the state's table has the value that was looked up
    refine List.mem_append_right _ (List.mem_flatMap.2 ?_)
    obtain ⟨s, -, hs⟩ := Option.bind_eq_some_iff.1 hstep
    unfold step at hs
    split at hs
    · contradiction
    · next node hnode =>
      refine ⟨node, Array.mem_toList_iff.2 (Array.mem_of_getElem? hnode), ?_⟩
      simp only [Table.step, Table.target] at hs
      cases hget : node.table.steps.get? byte.toNat with
      | none => rw [hget] at hs; contradiction
      | some target =>
        rw [hget, Option.getD_some] at hs
        exact Runs.mem_values_of_get? (by rw [hget, hs])

private theorem some_mem_stateNames {fa : Automaton α} {s : StateId} (h : s < fa.size) :
    some s ∈ fa.stateNames :=
  List.mem_append_left _
    (List.mem_cons_of_mem _ (List.mem_map_of_mem (List.mem_range.2 h)))

namespace Union

variable {a b : Automaton α} {p q : StatePair}

/-! ### What follows a pair -/

/-- Where `byte` leads a pair. -/
def after (a b : Automaton α) (p : StatePair) (byte : UInt8) : StatePair :=
  ⟨a.stepFrom p.left byte, b.stepFrom p.right byte⟩

/-- Where the bytes lead a pair changes only where a run of either part ends. -/
theorem steps_cuts (a b : Automaton α) (p : StatePair) (c : Nat) (hpos : 0 < c)
    (h : c ∉ (a.tableAt p.left).steps.ends ++ (b.tableAt p.right).steps.ends) :
    (⟨(a.tableAt p.left).target c, (b.tableAt p.right).target c⟩ : StatePair) =
      ⟨(a.tableAt p.left).target (c - 1), (b.tableAt p.right).target (c - 1)⟩ := by
  rw [List.mem_append, not_or] at h
  simp only [Table.target, Runs.get?_sub_one hpos h.1, Runs.get?_sub_one hpos h.2]

theorem get?_steps (a b : Automaton α) (p : StatePair) (byte : UInt8) :
    (steps a b p).get? byte.toNat = if InAlphabet byte then some (after a b p byte) else none := by
  rw [steps, Runs.get?_tabulate fun c hpos _ => steps_cuts a b p c hpos]
  simp only [target_tableAt, after, InAlphabet]

private theorem mem_values_steps :
    q ∈ (steps a b p).values ↔ ∃ byte, InAlphabet byte ∧ after a b p byte = q := by
  rw [steps, Runs.mem_values_tabulate fun c hpos _ => steps_cuts a b p c hpos]
  refine ⟨?_, ?_⟩
  · rintro ⟨i, hi, rfl⟩
    -- a place below the size of the alphabet is that of a byte
    have hbyte : (UInt8.ofNat i).toNat = i := toNat_ofNat_of_lt hi
    refine ⟨UInt8.ofNat i, by rwa [InAlphabet, hbyte], ?_⟩
    simp only [after, ← target_tableAt, hbyte]
  · rintro ⟨byte, hbyte, rfl⟩
    exact ⟨byte.toNat, hbyte, by simp only [after, target_tableAt]⟩

theorem mem_epsilons :
    q ∈ epsilons a b p ↔
      (∃ s e, p.left = some s ∧ e ∈ epsilonTargets a.nodes s ∧ q = ⟨some e, none⟩) ∨
      ∃ s e, p.right = some s ∧ e ∈ epsilonTargets b.nodes s ∧ q = ⟨none, some e⟩ := by
  simp only [epsilons, List.mem_append, List.mem_map, mem_epsilons_tableAt]
  refine ⟨?_, ?_⟩
  · rintro (⟨e, ⟨s, hs, he⟩, rfl⟩ | ⟨e, ⟨s, hs, he⟩, rfl⟩)
    · exact .inl ⟨s, e, hs, he, rfl⟩
    · exact .inr ⟨s, e, hs, he, rfl⟩
  · rintro (⟨s, e, hs, he, rfl⟩ | ⟨s, e, hs, he, rfl⟩)
    · exact .inl ⟨e, ⟨s, hs, he⟩, rfl⟩
    · exact .inr ⟨e, ⟨s, hs, he⟩, rfl⟩

theorem mem_next :
    q ∈ next a b p ↔
      ((∃ byte, InAlphabet byte ∧ after a b p byte = q) ∨ q ∈ epsilons a b p) ∧
        q ≠ StatePair.dead := by
  rw [next, List.mem_filter, List.mem_append, mem_values_steps, decide_eq_true_eq]

/-! ### The pairs that are numbered -/

/-- All pairs of names. -/
def allPairs (a b : Automaton α) : List StatePair :=
  a.stateNames.flatMap fun left => b.stateNames.map fun right => ⟨left, right⟩

theorem mem_allPairs : p ∈ allPairs a b ↔ p.left ∈ a.stateNames ∧ p.right ∈ b.stateNames := by
  simp only [allPairs, List.mem_flatMap, List.mem_map]
  refine ⟨?_, ?_⟩
  · rintro ⟨left, hleft, right, hright, rfl⟩
    exact ⟨hleft, hright⟩
  · rintro ⟨hleft, hright⟩
    exact ⟨p.left, hleft, p.right, hright, rfl⟩

theorem length_allPairs (a b : Automaton α) :
    (allPairs a b).length = a.stateNames.length * b.stateNames.length := by
  simp [allPairs, List.length_flatMap]

private theorem none_mem_stateNames (fa : Automaton α) : none ∈ fa.stateNames :=
  List.mem_append_left _ List.mem_cons_self

theorem next_mem_allPairs (h : q ∈ next a b p) : q ∈ allPairs a b := by
  rw [mem_allPairs]
  obtain ⟨⟨byte, -, rfl⟩ | heps, -⟩ := mem_next.1 h
  · exact ⟨a.stepFrom_mem_stateNames _ _, b.stepFrom_mem_stateNames _ _⟩
  · -- an epsilon edge drops the other part, and no state is among the names as well
    rcases mem_epsilons.1 heps with ⟨s, e, -, he, rfl⟩ | ⟨s, e, -, he, rfl⟩
    · exact ⟨some_mem_stateNames (a.toGraph.epsilonTargets_lt he), none_mem_stateNames b⟩
    · exact ⟨none_mem_stateNames a, some_mem_stateNames (b.toGraph.epsilonTargets_lt he)⟩

theorem start_mem_allPairs (a b : Automaton α) :
    (⟨some a.start, some b.start⟩ : StatePair) ∈ allPairs a b :=
  mem_allPairs.2 ⟨some_mem_stateNames a.start_lt, some_mem_stateNames b.start_lt⟩

/-- **The pairs numbered are those that can be reached.** -/
theorem mem_pairs_iff (a b : Automaton α) (q : StatePair) :
    q ∈ (pairs a b).items ↔ Reaches (next a b) ⟨some a.start, some b.start⟩ q := by
  rw [← Array.mem_toList_iff, pairs]
  exact mem_explore_iff (Numbering.lawful_insert (allPairs a b))
    (fun _ _ _ hy => next_mem_allPairs hy) (Nat.le_of_eq (length_allPairs a b)) rfl
    (start_mem_allPairs a b) q

theorem next_mem_pairs (hp : p ∈ (pairs a b).items) (hq : q ∈ next a b p) :
    q ∈ (pairs a b).items :=
  (mem_pairs_iff a b q).2 (((mem_pairs_iff a b p).1 hp).tail hq)

theorem getElem?_of_stateFor {numbering : Numbering StatePair} {j : StateId}
    (h : stateFor numbering p = some j) : numbering.items[j]? = some p := by
  unfold stateFor at h
  split at h
  · contradiction
  · exact Numbering.index?_eq_some_iff.1 h

/-- A pair that follows a numbered one has a state. -/
theorem exists_stateFor_of_next (hp : p ∈ (pairs a b).items) (hq : q ∈ next a b p) :
    ∃ j, stateFor (pairs a b) q = some j := by
  obtain ⟨j, hj⟩ := Array.mem_iff_getElem?.1 (next_mem_pairs hp hq)
  exact ⟨j, by rw [stateFor, if_neg (mem_next.1 hq).2, Numbering.index?_eq_some_iff, hj]⟩

/-! ### The states of the union -/

variable [DecidableEq α] {i : StateId}

theorem nodes_union (a b : Automaton α) :
    (a.union b).nodes = (pairs a b).items.map (node a b (pairs a b)) := rfl

theorem start_union (a b : Automaton α) : (a.union b).start = 0 := rfl

theorem getElem?_nodes (hi : (pairs a b).items[i]? = some p) :
    (a.union b).nodes[i]? = some (node a b (pairs a b) p) := by
  rw [nodes_union, Array.getElem?_map, hi, Option.map_some]

theorem mem_payloads_iff (hi : (pairs a b).items[i]? = some p) (x : α) :
    x ∈ (a.union b).payloads i ↔
      (∃ s, p.left = some s ∧ x ∈ a.payloads s) ∨ ∃ s, p.right = some s ∧ x ∈ b.payloads s := by
  rw [payloads, getElem?_nodes hi]
  simp only [node, List.mem_eraseDups, List.mem_append, mem_payloadsAt]

/-- **The steps of a union**: a byte of the alphabet leads to the state of the pair to which it leads
the two parts. -/
theorem step_eq (hi : (pairs a b).items[i]? = some p) (byte : UInt8) :
    (a.union b).step i byte =
      if InAlphabet byte then stateFor (pairs a b) (after a b p byte) else none := by
  have hascending : (steps a b p).Ascending := by
    unfold steps
    exact Runs.ascending_tabulate
  rw [step, getElem?_nodes hi]
  simp only [node, Table.step, Table.target, Runs.get?_mapValues hascending, get?_steps]
  split <;> rfl

theorem mem_epsilonTargets_iff (hi : (pairs a b).items[i]? = some p) (e : StateId) :
    e ∈ epsilonTargets (a.union b).nodes i ↔
      ∃ q ∈ epsilons a b p, stateFor (pairs a b) q = some e := by
  rw [epsilonTargets_eq (getElem?_nodes hi)]
  simp only [node, List.mem_filterMap]

/-- The union's first state stands for the pair of start states. -/
theorem getElem?_start (a b : Automaton α) :
    (pairs a b).items[(a.union b).start]? = some ⟨some a.start, some b.start⟩ := by
  have hfirst : [⟨some a.start, some b.start⟩] <+: (pairs a b).items.toList :=
    start_prefix_explore (Numbering.lawful_insert (allPairs a b)) (next a b) _ rfl
      (start_mem_allPairs a b)
  obtain ⟨rest, hrest⟩ := hfirst
  rw [start_union, ← Array.getElem?_toList, ← hrest]
  rfl

theorem stepsInside (a b : Automaton α) : (a.union b).StepsInside := by
  intro i byte next hstep
  cases hi : (pairs a b).items[i]? with
  | none =>
    have hnone : (a.union b).nodes[i]? = none := by
      rw [nodes_union, Array.getElem?_map, hi, Option.map_none]
    rw [step, hnone] at hstep
    contradiction
  | some p =>
    rw [step_eq hi] at hstep
    split at hstep
    · next hbyte =>
      refine ⟨hbyte, ?_⟩
      have hsize : (a.union b).size = (pairs a b).items.size := Array.size_map
      rw [hsize]
      exact stateFor_lt hstep
    · contradiction

/-! ### Paths of the union -/

/-- **A side of the union**: the part `c` walks in the states that `side` picks from the pairs. -/
structure Side (a b c : Automaton α) (side : StatePair → Option StateId) : Prop where
  dead : side StatePair.dead = none
  after : ∀ p byte, side (after a b p byte) = c.stepFrom (side p) byte
  epsilon_iff : ∀ p e, (∃ q ∈ epsilons a b p, side q = some e) ↔
    ∃ s, side p = some s ∧ e ∈ epsilonTargets c.nodes s

omit [DecidableEq α] in
theorem side_left (a b : Automaton α) : Side a b a StatePair.left where
  dead := rfl
  after _ _ := rfl
  epsilon_iff p e := by
    refine ⟨?_, ?_⟩
    · rintro ⟨q, hq, he⟩
      -- only an epsilon edge of this part leaves a state on this side
      rcases mem_epsilons.1 hq with ⟨s, e', hs, he', rfl⟩ | ⟨_, _, _, _, rfl⟩
      · obtain rfl : e' = e := Option.some.inj he
        exact ⟨s, hs, he'⟩
      · contradiction
    · rintro ⟨s, hs, he⟩
      exact ⟨⟨some e, none⟩, mem_epsilons.2 (.inl ⟨s, e, hs, he, rfl⟩), rfl⟩

omit [DecidableEq α] in
theorem side_right (a b : Automaton α) : Side a b b StatePair.right where
  dead := rfl
  after _ _ := rfl
  epsilon_iff p e := by
    refine ⟨?_, ?_⟩
    · rintro ⟨q, hq, he⟩
      -- an edge of the other part leaves none here
      rcases mem_epsilons.1 hq with ⟨_, _, _, _, rfl⟩ | ⟨s, e', hs, he', rfl⟩
      · contradiction
      · obtain rfl : e' = e := Option.some.inj he
        exact ⟨s, hs, he'⟩
    · rintro ⟨s, hs, he⟩
      exact ⟨⟨none, some e⟩, mem_epsilons.2 (.inr ⟨s, e, hs, he, rfl⟩), rfl⟩

variable {c : Automaton α} {side : StatePair → Option StateId} {j s t : StateId} {read : Bytes}

/-- **Projection.** A path of the union that ends in a pair with a state on one side is a path on
that side. -/
theorem path_project (hside : Side a b c side) (h : (a.union b).Path i read j)
    (hi : (pairs a b).items[i]? = some p) :
    ∃ q, (pairs a b).items[j]? = some q ∧
      ∀ t, side q = some t → ∃ s, side p = some s ∧ c.Path s read t := by
  -- the last pair is known, and from it the states of this side are found backwards
  induction h generalizing p with
  | refl => exact ⟨p, hi, fun t ht => ⟨t, ht, .refl t⟩⟩
  | epsilon he _ ih =>
    obtain ⟨q, hq, hstate⟩ := (mem_epsilonTargets_iff hi _).1 he
    obtain ⟨last, hlast, hpath⟩ := ih (getElem?_of_stateFor hstate)
    refine ⟨last, hlast, fun t ht => ?_⟩
    obtain ⟨e, he, hrest⟩ := hpath t ht
    obtain ⟨s, hs, hedge⟩ := (hside.epsilon_iff p e).1 ⟨q, hq, he⟩
    exact ⟨s, hs, .epsilon hedge hrest⟩
  | byte hstep _ ih =>
    rw [step_eq hi] at hstep
    split at hstep
    · obtain ⟨last, hlast, hpath⟩ := ih (getElem?_of_stateFor hstep)
      refine ⟨last, hlast, fun t ht => ?_⟩
      obtain ⟨n, hn, hrest⟩ := hpath t ht
      -- the state behind the byte has come from one before it
      rw [hside.after] at hn
      obtain ⟨s, hs, hbyte⟩ := Option.bind_eq_some_iff.1 hn
      exact ⟨s, hs, .byte hbyte hrest⟩
    · contradiction

/-- **Lifting.** A path on one side is that side of a path of the union. -/
theorem path_lift (hside : Side a b c side) (inside : c.StepsInside) (h : c.Path s read t)
    (hi : (pairs a b).items[i]? = some p) (hs : side p = some s) :
    ∃ j q, (pairs a b).items[j]? = some q ∧ side q = some t ∧ (a.union b).Path i read j := by
  -- a pair with a state on this side is not the dead one
  have halive : ∀ {q n}, side q = some n → q ≠ StatePair.dead := by
    rintro q n hn rfl
    rw [hside.dead] at hn
    contradiction
  induction h generalizing p i with
  | refl => exact ⟨i, p, hi, hs, .refl i⟩
  | epsilon he _ ih =>
    obtain ⟨q, hq, hqe⟩ := (hside.epsilon_iff p _).2 ⟨_, hs, he⟩
    have hnext : q ∈ next a b p := mem_next.2 ⟨.inr hq, halive hqe⟩
    obtain ⟨k, hk⟩ := exists_stateFor_of_next (Array.mem_of_getElem? hi) hnext
    obtain ⟨j, last, hj, hlast, hpath⟩ := ih (getElem?_of_stateFor hk) hqe
    exact ⟨j, last, hj, hlast, .epsilon ((mem_epsilonTargets_iff hi k).2 ⟨q, hq, hk⟩) hpath⟩
  | @byte s n t byte read hstep _ ih =>
    -- the byte is of the alphabet, or the union would not step on it
    have hbyte : InAlphabet byte := (inside s byte n hstep).1
    have hafter : side (after a b p byte) = some n := by
      rw [hside.after, stepFrom, hs, Option.bind_some, hstep]
    have hnext : after a b p byte ∈ next a b p :=
      mem_next.2 ⟨.inl ⟨byte, hbyte, rfl⟩, halive hafter⟩
    obtain ⟨k, hk⟩ := exists_stateFor_of_next (Array.mem_of_getElem? hi) hnext
    obtain ⟨j, last, hj, hlast, hpath⟩ := ih (getElem?_of_stateFor hk) hafter
    exact ⟨j, last, hj, hlast, .byte (by rw [step_eq hi, if_pos hbyte, hk]) hpath⟩

/-- What one side yields is yielded by the union. -/
theorem yields_of_side (hside : Side a b c side) (inside : c.StepsInside)
    (hstart : side ⟨some a.start, some b.start⟩ = some c.start)
    (hpayloads : ∀ i q t x, (pairs a b).items[i]? = some q → side q = some t → x ∈ c.payloads t →
      x ∈ (a.union b).payloads i) {x : α} (h : c.Yields read x) : (a.union b).Yields read x := by
  obtain ⟨t, hpath, hx⟩ := h
  -- the path is lifted from the pair of start states
  obtain ⟨j, q, hj, hq, hlifted⟩ := path_lift hside inside hpath (getElem?_start a b) hstart
  exact ⟨j, hlifted, hpayloads j q t x hj hq hx⟩

end Union

/-- **The union yields what either part yields.** -/
theorem yields_union_iff [DecidableEq α] {a b : Automaton α} (ha : a.StepsInside)
    (hb : b.StepsInside) {read : Bytes} {x : α} :
    (a.union b).Yields read x ↔ a.Yields read x ∨ b.Yields read x := by
  refine ⟨?_, ?_⟩
  · -- the payload is that of one side of the last pair, and on this side there is a path to it
    rintro ⟨j, hpath, hx⟩
    obtain ⟨q, hq, hleft⟩ := Union.path_project (Union.side_left a b) hpath (Union.getElem?_start a b)
    obtain ⟨q', hq', hright⟩ :=
      Union.path_project (Union.side_right a b) hpath (Union.getElem?_start a b)
    obtain rfl : q = q' := Option.some.inj (hq.symm.trans hq')
    rcases (Union.mem_payloads_iff hq x).1 hx with ⟨t, ht, hx⟩ | ⟨t, ht, hx⟩
    · obtain ⟨s, hs, hpath⟩ := hleft t ht
      obtain rfl : a.start = s := Option.some.inj hs
      exact .inl ⟨t, hpath, hx⟩
    · obtain ⟨s, hs, hpath⟩ := hright t ht
      obtain rfl : b.start = s := Option.some.inj hs
      exact .inr ⟨t, hpath, hx⟩
  · rintro (h | h)
    · exact Union.yields_of_side (Union.side_left a b) ha rfl
        (fun i q t x hi ht hx => (Union.mem_payloads_iff hi x).2 (.inl ⟨t, ht, hx⟩)) h
    · exact Union.yields_of_side (Union.side_right a b) hb rfl
        (fun i q t x hi ht hx => (Union.mem_payloads_iff hi x).2 (.inr ⟨t, ht, hx⟩)) h

end Automaton

/-! ### Folding a list of automata -/

/-- A way of folding automata by union: in which order, and how bracketed. -/
inductive UnionTree (α : Type) where
  | leaf (fa : Automaton α)
  | join (left right : UnionTree α)

namespace UnionTree

/-- The automata that are folded, from left to right. -/
def leaves : UnionTree α → List (Automaton α)
  | leaf fa => [fa]
  | join left right => left.leaves ++ right.leaves

private theorem leaves_ne_nil (tree : UnionTree α) : tree.leaves ≠ [] := by
  induction tree with
  | leaf fa => exact List.cons_ne_nil _ _
  | join left right ihl _ => exact fun h => ihl (List.append_eq_nil_iff.1 h).1

variable [DecidableEq α]

/-- The union of all. -/
def automaton : UnionTree α → Automaton α
  | leaf fa => fa
  | join left right => left.automaton.union right.automaton

theorem stepsInside {tree : UnionTree α} (h : ∀ fa ∈ tree.leaves, fa.StepsInside) :
    tree.automaton.StepsInside := by
  cases tree with
  | leaf fa => exact h fa List.mem_cons_self
  | join left right => exact Automaton.Union.stepsInside _ _

/-- **A folded union yields what any of its leaves yields.** -/
theorem yields_iff {tree : UnionTree α} (h : ∀ fa ∈ tree.leaves, fa.StepsInside) {read : Bytes}
    {x : α} : tree.automaton.Yields read x ↔ ∃ fa ∈ tree.leaves, fa.Yields read x := by
  induction tree with
  | leaf fa => simp [automaton, leaves]
  | join left right ihl ihr =>
    have hl : ∀ fa ∈ left.leaves, fa.StepsInside := fun fa hfa => h fa (List.mem_append_left _ hfa)
    have hr : ∀ fa ∈ right.leaves, fa.StepsInside :=
      fun fa hfa => h fa (List.mem_append_right _ hfa)
    rw [automaton, Automaton.yields_union_iff (stepsInside hl) (stepsInside hr), ihl hl, ihr hr,
      leaves]
    simp only [List.mem_append, or_and_right, exists_or]

/-- A folded union finds what came in and what any of its leaves yields. -/
theorem mem_traverse_iff {tree : UnionTree α} (h : ∀ fa ∈ tree.leaves, fa.StepsInside)
    {threshold : Nat} {value : Bytes} {incoming found : List α}
    (hfound : tree.automaton.traverse threshold value incoming = .ok found) (x : α) :
    x ∈ found ↔ x ∈ incoming ∨
      ∃ fa ∈ tree.leaves, ∃ read, read <+: symbols value ∧ fa.Yields read x := by
  rw [(Automaton.answers_of_traverse hfound).mem_iff]
  simp only [yields_iff h]
  refine or_congr_right ⟨?_, ?_⟩
  · rintro ⟨read, hread, fa, hfa, hx⟩
    exact ⟨fa, hfa, read, hread, hx⟩
  · rintro ⟨fa, hfa, read, hread, hx⟩
    exact ⟨read, hread, fa, hfa, hx⟩

/-- **A folded union finds what its leaves find.** However a list of automata is folded, walking the
union finds, each once, the payloads that walking one of them finds. Two ways of folding the same
automata, in another order, otherwise bracketed or with some of them repeated, find the same. -/
theorem union_finds_what_leaves_find (tree : UnionTree α)
    (inside : ∀ fa ∈ tree.leaves, fa.StepsInside) (threshold : Nat) (value : Bytes)
    (incoming : List α) :
    (∃ found, tree.automaton.traverse threshold value incoming = .ok found ∧ found.Nodup ∧
      ∀ x, x ∈ found ↔ ∃ fa ∈ tree.leaves, ∃ part,
        fa.traverse threshold value incoming = .ok part ∧ x ∈ part) ∧
    ∀ other : UnionTree α, (∀ fa, fa ∈ other.leaves ↔ fa ∈ tree.leaves) →
      ∃ found found', tree.automaton.traverse threshold value incoming = .ok found ∧
        other.automaton.traverse threshold value incoming = .ok found' ∧
        ∀ x, x ∈ found ↔ x ∈ found' := by
  obtain ⟨found, hfound⟩ :=
    Automaton.traverse_isOk (stepsInside inside) threshold value incoming
  refine ⟨⟨found, hfound, (Automaton.answers_of_traverse hfound).nodup, fun x => ?_⟩, ?_⟩
  · rw [mem_traverse_iff inside hfound]
    refine ⟨?_, ?_⟩
    · rintro (hx | ⟨fa, hfa, hx⟩)
      · -- what came in is found by every leaf, and there is one
        obtain ⟨fa, hfa⟩ := List.exists_mem_of_ne_nil _ tree.leaves_ne_nil
        exact ⟨fa, hfa, (Automaton.exists_mem_traverse_iff (inside fa hfa)).2 (.inl hx)⟩
      · exact ⟨fa, hfa, (Automaton.exists_mem_traverse_iff (inside fa hfa)).2 (.inr hx)⟩
    · rintro ⟨fa, hfa, hpart⟩
      rcases (Automaton.exists_mem_traverse_iff (inside fa hfa)).1 hpart with hx | hx
      · exact .inl hx
      · exact .inr ⟨fa, hfa, hx⟩
  · -- what is yielded depends on which leaves there are, not on where they stand
    intro other hleaves
    have hother : ∀ fa ∈ other.leaves, fa.StepsInside :=
      fun fa hfa => inside fa ((hleaves fa).1 hfa)
    obtain ⟨found', hfound'⟩ :=
      Automaton.traverse_isOk (stepsInside hother) threshold value incoming
    refine ⟨found, found', hfound, hfound', fun x => ?_⟩
    rw [mem_traverse_iff inside hfound, mem_traverse_iff hother hfound']
    simp only [hleaves]

/-- The union of the automata of `*a` and `a*`, the first of them merged in twice. -/
theorem union_finds_what_leaves_find_twice :
    let ends : Automaton Nat := Glob.automaton [.star, .byte 97] 1
    let begins : Automaton Nat := Glob.automaton [.byte 97, .star] 2
    let tree : UnionTree Nat := .join (.join (.leaf ends) (.leaf begins)) (.leaf ends)
    (∀ fa ∈ tree.leaves, fa.StepsInside) ∧
      ∃ found, tree.automaton.traverse 500 [97] [7, 7] = .ok found ∧ found.Nodup ∧
        ∀ x, x ∈ found ↔ ∃ fa ∈ tree.leaves, ∃ part,
          fa.traverse 500 [97] [7, 7] = .ok part ∧ x ∈ part := by
  intro ends begins tree
  have hends : ends.StepsInside := Automaton.stepsInside_of_runs (by decide +kernel)
  have hbegins : begins.StepsInside := Automaton.stepsInside_of_runs (by decide +kernel)
  have inside : ∀ fa ∈ tree.leaves, fa.StepsInside := by
    intro fa hfa
    rcases List.mem_cons.1 hfa with rfl | hfa
    · exact hends
    · rcases List.mem_cons.1 hfa with rfl | hfa
      · exact hbegins
      · rw [List.mem_singleton.1 hfa]
        exact hends
  exact ⟨inside, (union_finds_what_leaves_find tree inside 500 [97] [7, 7]).1⟩

end UnionTree

end ByteMatch
