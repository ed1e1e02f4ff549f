import ByteMatch.Proofs.Rounds
import ByteMatch.Proofs.UnionPlans
import Mathlib.Data.Set.Function

/-!
# The states of a union are the pairs that can be reached

A pair of states follows another one by a byte that both parts read, or by an epsilon edge of one
part, which the other part does not go along with (`Union.Follows`). The union has a state for each
pair that can be reached from the pair of start states by such moves and has a state left on one side
at least (`Union.Reached`), and no other states:

* `Union.mem_pairs_iff_reached`: what the exploration numbers are the pairs reached;
* `Union.pairOf_nameOf`: the pair of the state for a pair is that pair, which turns what is known of
  the states for pairs into what the states do, told by their pairs;
* `Union.reached_inside`: a reached pair has states of the two automata, so there are not many;
* `Union.exists_path_of_reaches`: the moves to a pair are a path of the union to its state.

`Union.states_are_the_reached_pairs` puts these together, with the rounds in which the worklist of the
union is emptied (`Discovery.rounds_of_explore`).
-/

namespace ByteMatch.Automaton.Union

open Discovery Relation

variable {α : Type} {a b : Automaton α} {p q : StatePair} {i : StateId}

/-! ### Reached pairs -/

/-- **One move of two walks.** A byte takes both on; an epsilon edge of one part takes that walk on
and ends the other one. -/
inductive Follows (a b : Automaton α) : StatePair → StatePair → Prop
  | byte (p : StatePair) {byte : UInt8} : InAlphabet byte →
      Follows a b p ⟨a.stepFrom p.left byte, b.stepFrom p.right byte⟩
  | left {p : StatePair} {s e : StateId} : p.left = some s → e ∈ epsilonTargets a.nodes s →
      Follows a b p ⟨some e, none⟩
  | right {p : StatePair} {s e : StateId} : p.right = some s → e ∈ epsilonTargets b.nodes s →
      Follows a b p ⟨none, some e⟩

/-- **The pair can be reached** from the start states, and a walk is left in it. -/
def Reached (a b : Automaton α) (p : StatePair) : Prop :=
  ReflTransGen (Follows a b) ⟨some a.start, some b.start⟩ p ∧ p ≠ StatePair.dead

private theorem follows_of_next (h : q ∈ next a b p) : Follows a b p q := by
  obtain ⟨⟨byte, hbyte, rfl⟩ | hq, -⟩ := mem_next.1 h
  · exact .byte p hbyte
  · rcases mem_epsilons.1 hq with ⟨s, e, hs, he, rfl⟩ | ⟨s, e, hs, he, rfl⟩
    · exact .left hs he
    · exact .right hs he

/-- Pairs that can come up lead to such pairs. -/
theorem known_of_follows (hp : Known a b p) (h : Follows a b p q) : Known a b q := by
  cases h with
  | byte hbyte => exact known_after hp hbyte
  | left hs he => exact known_of_mem_epsilons hp (mem_epsilons.2 (.inl ⟨_, _, hs, he, rfl⟩))
  | right hs he => exact known_of_mem_epsilons hp (mem_epsilons.2 (.inr ⟨_, _, hs, he, rfl⟩))

private theorem known_of_reaches (h : ReflTransGen (Follows a b) ⟨some a.start, some b.start⟩ p) :
    Known a b p := by
  induction h with
  | refl => exact known_start a b
  | tail _ hfollows ih => exact known_of_follows ih hfollows

/-- **The pairs numbered are those reached.** -/
theorem mem_pairs_iff_reached : p ∈ (pairs a b).items ↔ Reached a b p := by
  constructor
  · intro h
    have hreaches := (mem_pairs_iff a b p).1 h
    refine ⟨ReflTransGen.mono (fun x y hy => follows_of_next hy) _ _ hreaches, ?_⟩
    -- an exploration begins with a pair that is not dead, and leaves the dead one out
    rcases hreaches.cases_tail with hstart | ⟨x, -, hx⟩
    · rw [hstart]
      exact fun hdead => Option.some_ne_none _ (congrArg StatePair.left hdead)
    · exact (mem_next.1 hx).2
  · intro h
    -- whatever can come up is dead or numbered
    exact (known_of_reaches h.1).resolve_left h.2

/-- A reached pair has states of the two automata, if their steps stay inside. -/
theorem reached_inside (ha : a.StepsInside) (hb : b.StepsInside) (h : Reached a b p) :
    (∀ s, p.left = some s → s < a.size) ∧ ∀ s, p.right = some s → s < b.size := by
  induction h.1 with
  | refl =>
    constructor
    · intro s hs
      obtain rfl := Option.some.inj hs
      exact a.start_lt
    · intro s hs
      obtain rfl := Option.some.inj hs
      exact b.start_lt
  | tail _ hfollows _ =>
    cases hfollows with
    | byte _ =>
      constructor
      · intro s hs
        exact (ha.of_stepFrom hs).2
      · intro s hs
        exact (hb.of_stepFrom hs).2
    -- an epsilon edge of one part leaves the other part behind
    | left _ he =>
      constructor
      · intro s hs
        obtain rfl := Option.some.inj hs
        exact a.toGraph.epsilonTargets_lt he
      · intro s hs
        contradiction
    | right _ he =>
      constructor
      · intro s hs
        contradiction
      · intro s hs
        obtain rfl := Option.some.inj hs
        exact b.toGraph.epsilonTargets_lt he

/-! ### States and their pairs -/

/-- The pair for which a state of the union stands. -/
def pairOf (a b : Automaton α) (i : StateId) : StatePair := (pairs a b).items[i]?.getD StatePair.dead

theorem pairOf_eq (h : (pairs a b).items[i]? = some p) : pairOf a b i = p := by
  rw [pairOf, h, Option.getD_some]

/-- The pair of the state for a pair is that pair; where there is no state, the pair is dead. -/
theorem pairOf_nameOf (hp : Known a b p) : (nameOf a b p).elim StatePair.dead (pairOf a b) = p := by
  rcases hp.cases with rfl | ⟨i, hi, hpi⟩
  · rfl
  · rw [hi, Option.elim_some]
    exact pairOf_eq hpi

variable [DecidableEq α]

theorem size_union : (a.union b).size = (pairs a b).items.size := Array.size_map

theorem getElem?_pairs (hi : i < (a.union b).size) :
    (pairs a b).items[i]? = some (pairOf a b i) := by
  rw [size_union] at hi
  rw [pairOf, Array.getElem?_eq_getElem hi, Option.getD_some]

theorem lt_size_of_getElem? (h : (pairs a b).items[i]? = some p) : i < (a.union b).size := by
  rw [size_union]
  exact (Array.getElem?_eq_some_iff.1 h).1

/-- The state of the union is the name of its pair. -/
theorem nameOf_pairOf (hi : i < (a.union b).size) : nameOf a b (pairOf a b i) = some i := by
  have hpair := getElem?_pairs hi
  have hreached := mem_pairs_iff_reached.1 (Array.mem_of_getElem? hpair)
  rw [nameOf, stateFor, if_neg hreached.2, Numbering.index?_eq_some_iff]
  exact hpair

theorem known_pairOf (hi : i < (a.union b).size) : Known a b (pairOf a b i) :=
  .inr (Array.mem_of_getElem? (getElem?_pairs hi))

/-- **States and reached pairs correspond**, one to one. -/
theorem bijOn_pairOf (a b : Automaton α) :
    Set.BijOn (pairOf a b) {i | i < (a.union b).size} {p | Reached a b p} := by
  refine ⟨?_, ?_, ?_⟩
  · intro i hi
    exact mem_pairs_iff_reached.1 (Array.mem_of_getElem? (getElem?_pairs hi))
  · -- a state is the name of its pair
    intro i hi j hj heq
    have hname := nameOf_pairOf hi
    rw [heq, nameOf_pairOf hj] at hname
    exact (Option.some.inj hname).symm
  · -- a reached pair has been numbered, and its number is a state
    intro p hp
    obtain ⟨i, hi⟩ := Array.mem_iff_getElem?.1 (mem_pairs_iff_reached.2 hp)
    exact ⟨i, lt_size_of_getElem? hi, pairOf_eq hi⟩

/-- A byte leads a state to the state for where it leads the pair. -/
theorem pairOf_step (ha : a.StepsInside) (hb : b.StepsInside) (hi : i < (a.union b).size)
    (byte : UInt8) :
    ((a.union b).step i byte).elim StatePair.dead (pairOf a b) =
      ⟨a.stepFrom (pairOf a b i).left byte, b.stepFrom (pairOf a b i).right byte⟩ := by
  have hknown := known_pairOf hi
  by_cases hbyte : InAlphabet byte
  · have hstep := stepFrom_nameOf hknown hbyte
    rw [nameOf_pairOf hi, stepFrom, Option.bind_some] at hstep
    rw [hstep, pairOf_nameOf (known_after hknown hbyte), after]
  · -- no part steps on a byte that is not read, nor does the union
    have hunion := (stepsInside a b).stepFrom_eq_none hbyte (some i)
    rw [stepFrom, Option.bind_some] at hunion
    rw [hunion, ha.stepFrom_eq_none hbyte, hb.stepFrom_eq_none hbyte]
    rfl

/-- The epsilon edges of a state lead to the states for where those of the two parts lead. -/
theorem pairOf_epsilons (hi : i < (a.union b).size) :
    ((a.union b).tableAt (some i)).epsilons.map (pairOf a b) = epsilons a b (pairOf a b i) := by
  have hknown := known_pairOf hi
  have hnames := epsilons_nameOf hknown
  rw [nameOf_pairOf hi] at hnames
  -- the edges are known by the names of the pairs, and from these the pairs are read back
  calc ((a.union b).tableAt (some i)).epsilons.map (pairOf a b)
      = (((a.union b).tableAt (some i)).epsilons.map some).map
          fun name => name.elim StatePair.dead (pairOf a b) := by
        rw [List.map_map]
        apply List.map_congr_left
        intro e _
        rw [Function.comp_apply, Option.elim_some]
    _ = (epsilons a b (pairOf a b i)).map
          fun q => (nameOf a b q).elim StatePair.dead (pairOf a b) := by
        rw [hnames, List.map_map]
        apply List.map_congr_left
        intro q _
        rw [Function.comp_apply]
    _ = (epsilons a b (pairOf a b i)).map id := by
        apply List.map_congr_left
        intro q hq
        exact pairOf_nameOf (known_of_mem_epsilons hknown hq)
    _ = epsilons a b (pairOf a b i) := List.map_id _

theorem payloads_eq (hi : i < (a.union b).size) :
    (a.union b).payloads i =
      (a.payloadsAt (pairOf a b i).left ++ b.payloadsAt (pairOf a b i).right).eraseDups := by
  have hpayloads := payloadsAt_nameOf (known_pairOf hi)
  rw [nameOf_pairOf hi] at hpayloads
  exact hpayloads

/-- **The moves to a reached pair are a path** to its state. -/
theorem exists_path_of_reaches (h : Reaches (next a b) ⟨some a.start, some b.start⟩ p) :
    ∃ i read, (pairs a b).items[i]? = some p ∧ (a.union b).Path (a.union b).start read i := by
  induction h with
  | refl => exact ⟨_, [], getElem?_start a b, .refl _⟩
  | @tail q p hq hnext ih =>
    obtain ⟨i, read, hi, hpath⟩ := ih
    obtain ⟨j, hj⟩ := exists_stateFor_of_next ((mem_pairs_iff a b q).2 hq) hnext
    have hstate := getElem?_of_stateFor hj
    -- a byte makes the path longer, an epsilon edge reads nothing
    obtain ⟨⟨byte, hbyte, rfl⟩ | hepsilon, -⟩ := mem_next.1 hnext
    · have hstep : (a.union b).step i byte = some j := by rw [step_eq hi, if_pos hbyte, hj]
      exact ⟨j, read ++ [byte], hstate, hpath.trans (.byte hstep (.refl j))⟩
    · have hedge := (mem_epsilonTargets_iff hi j).2 ⟨p, hepsilon, hj⟩
      exact ⟨j, read ++ [], hstate, hpath.trans (.epsilon hedge (.refl j))⟩

theorem exists_path (hi : i < (a.union b).size) :
    ∃ read, (a.union b).Path (a.union b).start read i := by
  have hpair := getElem?_pairs hi
  obtain ⟨j, read, hj, hpath⟩ :=
    exists_path_of_reaches ((mem_pairs_iff a b _).1 (Array.mem_of_getElem? hpair))
  -- the pair has one state
  have hname := nameOf_pairOf (lt_size_of_getElem? hj)
  rw [pairOf_eq hj, nameOf_pairOf hi] at hname
  rw [Option.some.inj hname]
  exact ⟨read, hpath⟩

/-! ### How many states there are -/

/-- All pairs of states of the two automata, either of which may be missing. -/
def pairsWithin (a b : Automaton α) : List StatePair :=
  (none :: (List.range a.size).map some).flatMap fun left =>
    (none :: (List.range b.size).map some).map fun right => ⟨left, right⟩

omit [DecidableEq α] in
private theorem length_pairsWithin (a b : Automaton α) :
    (pairsWithin a b).length = (a.size + 1) * (b.size + 1) := by
  simp only [pairsWithin, List.length_flatMap, List.length_map, List.length_cons, List.length_range,
    List.map_const', List.sum_replicate_nat]

omit [DecidableEq α] in
private theorem mem_pairsWithin (hleft : ∀ s, p.left = some s → s < a.size)
    (hright : ∀ s, p.right = some s → s < b.size) : p ∈ pairsWithin a b := by
  -- on either side the state may be missing
  have hmem : ∀ {fa : Automaton α} {state : Option StateId}, (∀ s, state = some s → s < fa.size) →
      state ∈ none :: (List.range fa.size).map some := by
    intro fa state h
    cases state with
    | none => exact List.mem_cons_self
    | some s =>
      exact List.mem_cons_of_mem _ (List.mem_map_of_mem (List.mem_range.2 (h s rfl)))
  exact List.mem_flatMap.2 ⟨p.left, hmem hleft, List.mem_map.2 ⟨p.right, hmem hright, rfl⟩⟩

/-- There are fewer states than pairs of states, missing ones counted: the dead pair has none. -/
theorem size_union_lt (ha : a.StepsInside) (hb : b.StepsInside) :
    (a.union b).size < (a.size + 1) * (b.size + 1) := by
  have hdead : StatePair.dead ∉ (pairs a b).items.toList := by
    intro hmem
    exact (mem_pairs_iff_reached.1 (Array.mem_toList_iff.1 hmem)).2 rfl
  -- with the dead pair in front the pairs numbered are still all different
  have hnodup : (StatePair.dead :: (pairs a b).items.toList).Nodup :=
    List.nodup_cons.2 ⟨hdead, (pairs a b).nodup⟩
  have hsubset : ∀ p ∈ StatePair.dead :: (pairs a b).items.toList, p ∈ pairsWithin a b := by
    intro p hp
    rcases List.mem_cons.1 hp with rfl | hp
    · exact mem_pairsWithin (fun s hs => nomatch hs) (fun s hs => nomatch hs)
    · obtain ⟨hleft, hright⟩ :=
        reached_inside ha hb (mem_pairs_iff_reached.1 (Array.mem_toList_iff.1 hp))
      exact mem_pairsWithin hleft hright
  have hle := hnodup.length_le_of_subset hsubset
  rwa [length_pairsWithin, List.length_cons, Array.length_toList, ← size_union] at hle

omit [DecidableEq α] in
theorem epsilons_tableAt_eq_nil {fa : Automaton α} (h : fa.deterministic = true)
    (state : Option StateId) : (fa.tableAt state).epsilons = [] := by
  rw [List.eq_nil_iff_forall_not_mem]
  intro e he
  obtain ⟨s, -, hs⟩ := mem_epsilons_tableAt.1 he
  rw [epsilonTargets_eq_nil h] at hs
  exact List.not_mem_nil hs

/-- Where neither part has epsilon edges, the union has none. -/
theorem deterministic_union (ha : a.deterministic = true) (hb : b.deterministic = true) :
    (a.union b).deterministic = true := by
  refine Array.all_eq_true_iff_forall_mem.2 fun n hn => ?_
  obtain ⟨i, hi⟩ := Array.mem_iff_getElem?.1 hn
  have hlt : i < (a.union b).size := (Array.getElem?_eq_some_iff.1 hi).1
  -- a state has as many edges as its pair
  have hedges := pairOf_epsilons hlt
  rw [epsilons, epsilons_tableAt_eq_nil ha, epsilons_tableAt_eq_nil hb, tableAt, Option.bind_some,
    hi] at hedges
  exact List.isEmpty_iff.2 (List.map_eq_nil_iff.1 hedges)

/-! ### The union as a whole -/

/-- The pairs numbered, and those still to be expanded, after `n` rounds. -/
def worklist (a b : Automaton α) (n : Nat) : Numbering StatePair × List StatePair :=
  afterRounds Numbering.insert (next a b) Numbering.empty ⟨some a.start, some b.start⟩ n

/-- **The union has a state for each pair that can be reached, and no other.** -/
structure Materialises (a b : Automaton α) : Prop where
  /-- The worklist is empty after a round for each state of the union, and not before. -/
  worklist_ends : ∀ n, (worklist a b n).2 = [] ↔ (a.union b).size ≤ n
  /-- By then it has numbered the pairs of the states. -/
  worklist_pairs : ∀ n, (worklist a b n).2 = [] →
    (worklist a b n).1.items.toList = (List.range (a.union b).size).map (pairOf a b)
  start : pairOf a b (a.union b).start = ⟨some a.start, some b.start⟩
  /-- States and reached pairs correspond, one to one. -/
  bijOn : Set.BijOn (pairOf a b) {i | i < (a.union b).size} {p | Reached a b p}
  /-- Every step leads to a state, that for where the byte leads the pair; there is none if it leads
  neither part on. -/
  inside : (a.union b).StepsInside
  step : ∀ i < (a.union b).size, ∀ byte,
    ((a.union b).step i byte).elim StatePair.dead (pairOf a b) =
      ⟨a.stepFrom (pairOf a b i).left byte, b.stepFrom (pairOf a b i).right byte⟩
  /-- The epsilon edges are those of the left part and then those of the right one. -/
  epsilons : ∀ i < (a.union b).size,
    ((a.union b).tableAt (some i)).epsilons.map (pairOf a b) =
      (a.tableAt (pairOf a b i).left).epsilons.map (fun e => ⟨some e, none⟩) ++
        (b.tableAt (pairOf a b i).right).epsilons.map (fun e => ⟨none, some e⟩)
  /-- The payloads are those of the left part and then those of the right one, each once. -/
  payloads : ∀ i < (a.union b).size, (a.union b).payloads i =
    (a.payloadsAt (pairOf a b i).left ++ b.payloadsAt (pairOf a b i).right).eraseDups
  /-- No state is out of reach. -/
  reachable : ∀ i < (a.union b).size, ∃ read, (a.union b).Path (a.union b).start read i
  size_le : (a.union b).size ≤ (a.size + 1) * (b.size + 1) - 1
  deterministic : a.deterministic = true → b.deterministic = true →
    (a.union b).deterministic = true

omit [DecidableEq α] in
theorem rounds_of_pairs (a b : Automaton α) (n : Nat) :
    ((worklist a b n).2 = [] ↔ (pairs a b).items.size ≤ n) ∧
      ((worklist a b n).2 = [] → (worklist a b n).1 = pairs a b) := by
  have hempty : (Numbering.empty : Numbering StatePair).items.toList = [] := rfl
  have hinside : ∀ p ∈ allPairs a b, ∀ q ∈ next a b p, q ∈ allPairs a b :=
    fun p _ q hq => next_mem_allPairs hq
  have hrounds := rounds_of_explore (Numbering.lawful_insert (allPairs a b)) hinside hempty
    (start_mem_allPairs a b)
    (Nat.le_of_eq (length_allPairs a b)) n
  rwa [Array.length_toList] at hrounds

/-- **The states of a union are the reached pairs**, whichever automata are united, as long as their
steps stay inside. -/
theorem states_are_the_reached_pairs (ha : a.StepsInside) (hb : b.StepsInside) :
    Materialises a b where
  worklist_ends n := by
    rw [size_union]
    exact (rounds_of_pairs a b n).1
  worklist_pairs n hstop := by
    rw [(rounds_of_pairs a b n).2 hstop]
    -- place by place: the pair numbered `i` is that of state `i`, and behind the states there is none
    apply List.ext_getElem?
    intro i
    by_cases hi : i < (a.union b).size
    · rw [Array.getElem?_toList, getElem?_pairs hi, List.getElem?_map, List.getElem?_range hi,
        Option.map_some]
    · have hle : (pairs a b).items.size ≤ i := by
        rw [← size_union]
        exact Nat.le_of_not_lt hi
      rw [Array.getElem?_toList, Array.getElem?_eq_none hle, List.getElem?_eq_none]
      simpa using hi
  start := pairOf_eq (getElem?_start a b)
  bijOn := bijOn_pairOf a b
  inside := stepsInside a b
  step i hi := pairOf_step ha hb hi
  epsilons i hi := pairOf_epsilons hi
  payloads i hi := payloads_eq hi
  reachable i hi := exists_path hi
  size_le := Nat.le_sub_one_of_lt (size_union_lt ha hb)
  deterministic := deterministic_union

/-- The union of the automata of `*a` and `a*` has eight states. Of the pairs of their four states
each, missing ones counted, most are never reached. -/
theorem states_are_the_reached_pairs_globs :
    let ends : Automaton Nat := Glob.automaton [.star, .byte 97] 1
    let begins : Automaton Nat := Glob.automaton [.byte 97, .star] 2
    ends.StepsInside ∧ begins.StepsInside ∧ (ends.union begins).size = 8 ∧
      Materialises ends begins := by
  intro ends begins
  have hends : ends.StepsInside := stepsInside_of_runs (by decide +kernel)
  have hbegins : begins.StepsInside := stepsInside_of_runs (by decide +kernel)
  exact ⟨hends, hbegins, by decide +kernel, states_are_the_reached_pairs hends hbegins⟩

end ByteMatch.Automaton.Union
