import ByteMatch.Proofs.Blueprints
import ByteMatch.Proofs.UnionPaths

/-!
# The union as a blueprint

The union of two automata is built from the blueprint whose names are the pairs of states
(`Union.builds_union`). A union may be a part of another one, and then its own states stand in pairs.
Seen from there, the state for a pair is one more name of that pair, `Union.nameOf`: where the bytes
and the epsilon edges lead the pair, they lead the name (`Union.stepFrom_nameOf`,
`Union.epsilons_nameOf`), and it carries the payloads of the pair (`Union.payloadsAt_nameOf`).

This holds for the pairs that can come up, which are `Union.Known`; these are closed under all that
follows, and their names are told apart.
-/

namespace ByteMatch.Automaton.Union

open Discovery

variable {α : Type} {a b : Automaton α} {p q : StatePair} {byte : UInt8}

/-- The blueprint of a union. -/
def blueprint (a b : Automaton α) : Blueprint StatePair α where
  start := ⟨some a.start, some b.start⟩
  dead := StatePair.dead
  after := after a b
  epsilons := epsilons a b
  payloads p := a.payloadsAt p.left ++ b.payloadsAt p.right

theorem steps_blueprint (a b : Automaton α) (p : StatePair) :
    (blueprint a b).steps p = steps a b p := by
  -- byte by byte the row is read off the tables of the two parts
  have hrow : alphabet.map (after a b p) = (List.range alphabetSize).map fun i =>
      ⟨(a.tableAt p.left).target i, (b.tableAt p.right).target i⟩ := by
    rw [alphabet, List.map_map]
    apply List.map_congr_left
    intro i hi
    have hbyte : (UInt8.ofNat i).toNat = i := toNat_ofNat_of_lt (List.mem_range.1 hi)
    rw [Function.comp_apply, after, ← target_tableAt, ← target_tableAt, hbyte]
  rw [steps, Runs.tabulate_eq fun c hpos _ => steps_cuts a b p c hpos]
  exact congrArg Runs.ofRow hrow

theorem next_blueprint (a b : Automaton α) : (blueprint a b).next = next a b := by
  funext p
  rw [Blueprint.next, steps_blueprint]
  rfl

theorem numbering_blueprint (a b : Automaton α) :
    (blueprint a b).numbering (a.stateNames.length * b.stateNames.length) = pairs a b := by
  rw [Blueprint.numbering, next_blueprint]
  rfl

/-- A union explores until there is no pair left. -/
theorem settled_blueprint (a b : Automaton α) :
    (blueprint a b).Settled (a.stateNames.length * b.stateNames.length) := by
  intro more
  rw [Blueprint.numbering, Blueprint.numbering, next_blueprint]
  exact explore_add (Numbering.lawful_insert (allPairs a b))
    (fun _ _ _ hy => next_mem_allPairs hy) (Nat.le_of_eq (length_allPairs a b)) rfl
    (start_mem_allPairs a b) more

/-- **A union is built from its blueprint.** -/
theorem builds_union [DecidableEq α] (a b : Automaton α) :
    (blueprint a b).Builds (a.union b).nodes := by
  -- the nodes are those of the blueprint for the same pairs
  have hnode : (blueprint a b).node (pairs a b) = node a b (pairs a b) := by
    funext p
    rw [Blueprint.node, steps_blueprint]
    rfl
  refine ⟨_, settled_blueprint a b, ?_⟩
  rw [Blueprint.nodes, numbering_blueprint, nodes_union, hnode]

/-! ### The pairs that can come up -/

/-- The pair is dead or has a state. -/
def Known (a b : Automaton α) (p : StatePair) : Prop := p = StatePair.dead ∨ p ∈ (pairs a b).items

/-- The state for a pair, as the name of a state in a further union. -/
def nameOf (a b : Automaton α) (p : StatePair) : Option StateId := stateFor (pairs a b) p

theorem nameOf_dead (a b : Automaton α) : nameOf a b StatePair.dead = none := rfl

theorem Known.cases (h : Known a b p) :
    p = StatePair.dead ∨ ∃ j, nameOf a b p = some j ∧ (pairs a b).items[j]? = some p := by
  by_cases hdead : p = StatePair.dead
  · exact .inl hdead
  · obtain ⟨j, hj⟩ := Array.mem_iff_getElem?.1 (h.resolve_left hdead)
    refine .inr ⟨j, ?_, hj⟩
    rw [nameOf, stateFor, if_neg hdead, Numbering.index?_eq_some_iff, hj]

/-- Names tell pairs apart. -/
theorem keepsApart_nameOf (a b : Automaton α) :
    Numbering.KeepsApart (nameOf a b) (Known a b) := by
  intro p q hp hq heq
  -- a dead pair has no name, and of two others the names are their places
  rcases hp.cases with rfl | ⟨i, hi, hpi⟩ <;> rcases hq.cases with rfl | ⟨j, hj, hqj⟩
  · rfl
  · rw [nameOf_dead, hj] at heq
    contradiction
  · rw [nameOf_dead, hi] at heq
    contradiction
  · rw [hi, hj] at heq
    obtain rfl : i = j := Option.some.inj heq
    exact Option.some.inj (hpi.symm.trans hqj)

theorem known_dead (a b : Automaton α) : Known a b StatePair.dead := .inl rfl

theorem known_start (a b : Automaton α) : Known a b ⟨some a.start, some b.start⟩ :=
  .inr ((mem_pairs_iff a b _).2 .refl)

private theorem known_of_next (hp : Known a b p) (hq : q ∈ next a b p) : Known a b q := by
  rcases hp with rfl | hp
  · -- nothing follows the dead pair
    obtain ⟨⟨byte, -, rfl⟩ | heps, hne⟩ := mem_next.1 hq
    · exact absurd rfl hne
    · rcases mem_epsilons.1 heps with ⟨s, _, hs, _⟩ | ⟨s, _, hs, _⟩
      · exact absurd hs.symm (Option.some_ne_none s)
      · exact absurd hs.symm (Option.some_ne_none s)
  · exact .inr (next_mem_pairs hp hq)

theorem known_after (hp : Known a b p) (hbyte : InAlphabet byte) :
    Known a b (after a b p byte) := by
  by_cases hdead : after a b p byte = StatePair.dead
  · -- where a byte leads neither part on, the pair behind it is dead
    exact .inl hdead
  · exact known_of_next hp (mem_next.2 ⟨.inl ⟨byte, hbyte, rfl⟩, hdead⟩)

private theorem ne_dead_of_mem_epsilons (hq : q ∈ epsilons a b p) : q ≠ StatePair.dead := by
  rintro rfl
  rcases mem_epsilons.1 hq with ⟨_, _, _, _, heq⟩ | ⟨_, _, _, _, heq⟩
  · exact Option.some_ne_none _ (congrArg StatePair.left heq).symm
  · exact Option.some_ne_none _ (congrArg StatePair.right heq).symm

theorem known_of_mem_epsilons (hp : Known a b p) (hq : q ∈ epsilons a b p) : Known a b q :=
  known_of_next hp (mem_next.2 ⟨.inr hq, ne_dead_of_mem_epsilons hq⟩)

/-! ### What the name of a pair does -/

section Names

variable [DecidableEq α]

theorem nameOf_start (a b : Automaton α) :
    nameOf a b ⟨some a.start, some b.start⟩ = some (a.union b).start := by
  have hne : (⟨some a.start, some b.start⟩ : StatePair) ≠ StatePair.dead :=
    fun h => Option.some_ne_none _ (congrArg StatePair.left h)
  rw [nameOf, stateFor, if_neg hne, Numbering.index?_eq_some_iff]
  exact getElem?_start a b

theorem stepFrom_nameOf (hp : Known a b p) (hbyte : InAlphabet byte) :
    (a.union b).stepFrom (nameOf a b p) byte = nameOf a b (after a b p byte) := by
  rcases hp.cases with rfl | ⟨j, hj, hpj⟩
  · rfl
  · rw [hj, stepFrom, Option.bind_some, step_eq hpj, if_pos hbyte, nameOf]

theorem epsilons_nameOf (hp : Known a b p) :
    ((a.union b).tableAt (nameOf a b p)).epsilons.map some = (epsilons a b p).map (nameOf a b) := by
  rcases hp.cases with rfl | ⟨j, hj, hpj⟩
  · rfl
  · have htable : (a.union b).tableAt (some j) = (node a b (pairs a b) p).table := by
      rw [tableAt, Option.bind_some, getElem?_nodes hpj]
    rw [hj, htable, node, List.map_filterMap]
    -- every epsilon edge leads to a pair that has a state, so that none is left out
    have hnamed : ∀ q ∈ epsilons a b p,
        (stateFor (pairs a b) q).map some = some (nameOf a b q) := by
      intro q hq
      rcases (known_of_mem_epsilons hp hq).cases with hdead | ⟨i, hi, -⟩
      · exact absurd hdead (ne_dead_of_mem_epsilons hq)
      · have hstate : stateFor (pairs a b) q = some i := hi
        rw [hi, hstate, Option.map_some]
    rw [List.filterMap_congr hnamed]
    exact congrFun List.filterMap_eq_map _

/-- The epsilon edges of a name, as parts of names of a further union. -/
theorem map_epsilons_nameOf {β : Type} (f : Option StateId → β) (hp : Known a b p) :
    ((a.union b).tableAt (nameOf a b p)).epsilons.map (fun e => f (some e)) =
      (epsilons a b p).map fun q => f (nameOf a b q) := by
  have hnames := congrArg (List.map f) (epsilons_nameOf hp)
  rwa [List.map_map, List.map_map] at hnames

theorem payloadsAt_nameOf (hp : Known a b p) :
    (a.union b).payloadsAt (nameOf a b p) =
      (a.payloadsAt p.left ++ b.payloadsAt p.right).eraseDups := by
  rcases hp.cases with rfl | ⟨j, hj, hpj⟩
  · rfl
  · rw [hj, payloadsAt, payloads, getElem?_nodes hpj]
    rfl

end Names

end ByteMatch.Automaton.Union
