import ByteMatch.Proofs.UnionPlans
import ByteMatch.Snapshot

/-!
# The union is associative

`(a ∪ b) ∪ c` and `a ∪ (b ∪ c)` are one automaton: not only do they find the same, they have the same
states under the same numbers, with the same runs, epsilon edges, payloads and closures, in the same
order.

The two are explored in different spaces, and the unions inside them number their own states each in
its own way. Both spaces are images of a third one, that of the triples of a state of each of the
three (`Union.triples`): the one bracketing replaces the first two parts of a triple by the name of
their pair, the other the last two (`Union.relabels_bracketLeft`, `Union.relabels_bracketRight`).
Hence both automata are built from the blueprint of the triples.
-/

namespace ByteMatch

variable {α : Type}

/-- A state of each of three automata, or none where the walk has died out. -/
structure StateTriple where
  first : Option StateId
  second : Option StateId
  third : Option StateId
deriving DecidableEq

namespace Automaton

namespace Union

variable {a b c : Automaton α} {t : StateTriple}

/-- The blueprint of the union of three automata. -/
def triples (a b c : Automaton α) : Blueprint StateTriple α where
  start := ⟨some a.start, some b.start, some c.start⟩
  dead := ⟨none, none, none⟩
  after t byte := ⟨a.stepFrom t.first byte, b.stepFrom t.second byte, c.stepFrom t.third byte⟩
  epsilons t :=
    (a.tableAt t.first).epsilons.map (fun e => ⟨some e, none, none⟩) ++
      (b.tableAt t.second).epsilons.map (fun e => ⟨none, some e, none⟩) ++
      (c.tableAt t.third).epsilons.map fun e => ⟨none, none, some e⟩
  payloads t := a.payloadsAt t.first ++ b.payloadsAt t.second ++ c.payloadsAt t.third

/-! ### The first two together -/

section BracketLeft

/-- The first two states of a triple, as a pair. -/
def initial (t : StateTriple) : StatePair := ⟨t.first, t.second⟩

/-- The first two states of a triple under one name. -/
def bracketLeft (a b : Automaton α) (t : StateTriple) : StatePair :=
  ⟨nameOf a b (initial t), t.third⟩

/-- An epsilon edge leaves the third state behind, or the first two. -/
private theorem epsilons_triples_initial (a b c : Automaton α) (t : StateTriple) :
    (triples a b c).epsilons t =
      (epsilons a b (initial t)).map (fun p => ⟨p.left, p.right, none⟩) ++
        (c.tableAt t.third).epsilons.map fun e => ⟨none, none, some e⟩ := by
  simp only [triples, epsilons, initial, List.map_append, List.map_map]
  rfl

variable [DecidableEq α]

theorem epsilons_bracketLeft (hp : Known a b (initial t)) :
    epsilons (a.union b) c (bracketLeft a b t) =
      ((triples a b c).epsilons t).map (bracketLeft a b) := by
  have hleft : ((a.union b).tableAt (nameOf a b (initial t))).epsilons.map
        (fun e => (⟨some e, none⟩ : StatePair)) =
      (epsilons a b (initial t)).map fun p => ⟨nameOf a b p, none⟩ :=
    map_epsilons_nameOf (fun name => (⟨name, none⟩ : StatePair)) hp
  rw [epsilons, bracketLeft, hleft, epsilons_triples_initial, List.map_append, List.map_map,
    List.map_map]
  rfl

/-- **Bracketing to the left** carries the triples to the pairs of `a ∪ b` and `c`. -/
theorem relabels_bracketLeft (a b c : Automaton α) :
    Blueprint.Relabels (bracketLeft a b) (fun t => Known a b (initial t)) (triples a b c)
      (blueprint (a.union b) c) where
  keepsApart t t' ht ht' heq := by
    -- the name gives back its pair, and the third state stands for itself
    have hinitial : initial t = initial t' :=
      keepsApart_nameOf a b _ _ ht ht' (congrArg StatePair.left heq)
    have hfirst : t.first = t'.first := congrArg StatePair.left hinitial
    have hsecond : t.second = t'.second := congrArg StatePair.right hinitial
    have hthird : t.third = t'.third := congrArg StatePair.right heq
    cases t
    cases t'
    simp only at hfirst hsecond hthird
    rw [hfirst, hsecond, hthird]
  valid_start := known_start a b
  valid_dead := known_dead a b
  valid_after t ht byte hbyte := known_after ht hbyte
  valid_epsilons t ht t' ht' := by
    rw [epsilons_triples_initial, List.mem_append, List.mem_map, List.mem_map] at ht'
    -- an edge of the first two leads to a known pair, one of the third leaves the dead one behind
    rcases ht' with ⟨p, hp, rfl⟩ | ⟨e, -, rfl⟩
    · exact known_of_mem_epsilons ht hp
    · exact known_dead a b
  start_eq := by
    have hstart : nameOf a b (initial (triples a b c).start) = some (a.union b).start :=
      nameOf_start a b
    rw [bracketLeft, hstart]
    rfl
  dead_eq := rfl
  after_eq t ht byte hbyte := by
    -- to step from the name of a pair is to name the pair behind
    have hpair : (a.union b).stepFrom (nameOf a b (initial t)) byte =
        nameOf a b (after a b (initial t) byte) := stepFrom_nameOf ht hbyte
    exact congrArg (fun name => (⟨name, c.stepFrom t.third byte⟩ : StatePair)) hpair
  epsilons_eq t ht := epsilons_bracketLeft ht
  payloads_eq t ht := by
    have hpair : (a.union b).payloadsAt (nameOf a b (initial t)) =
        (a.payloadsAt t.first ++ b.payloadsAt t.second).eraseDups := payloadsAt_nameOf ht
    -- what the inner union has dropped would be dropped by the outer one
    calc ((a.union b).payloadsAt (nameOf a b (initial t)) ++ c.payloadsAt t.third).eraseDups
        = ((a.payloadsAt t.first ++ b.payloadsAt t.second).eraseDups ++
            c.payloadsAt t.third).eraseDups := by rw [hpair]
      _ = (a.payloadsAt t.first ++ b.payloadsAt t.second ++ c.payloadsAt t.third).eraseDups :=
        eraseDups_append_left _ _

end BracketLeft

/-! ### The last two together -/

section BracketRight

/-- The last two states of a triple, as a pair. -/
def final (t : StateTriple) : StatePair := ⟨t.second, t.third⟩

/-- The last two states of a triple under one name. -/
def bracketRight (b c : Automaton α) (t : StateTriple) : StatePair :=
  ⟨t.first, nameOf b c (final t)⟩

/-- An epsilon edge leaves the first state behind, or the last two. -/
private theorem epsilons_triples_final (a b c : Automaton α) (t : StateTriple) :
    (triples a b c).epsilons t =
      (a.tableAt t.first).epsilons.map (fun e => ⟨some e, none, none⟩) ++
        (epsilons b c (final t)).map fun p => ⟨none, p.left, p.right⟩ := by
  simp only [triples, epsilons, final, List.map_append, List.map_map, List.append_assoc]
  rfl

variable [DecidableEq α]

theorem epsilons_bracketRight (hp : Known b c (final t)) :
    epsilons a (b.union c) (bracketRight b c t) =
      ((triples a b c).epsilons t).map (bracketRight b c) := by
  have hright : ((b.union c).tableAt (nameOf b c (final t))).epsilons.map
        (fun e => (⟨none, some e⟩ : StatePair)) =
      (epsilons b c (final t)).map fun p => ⟨none, nameOf b c p⟩ :=
    map_epsilons_nameOf (fun name => (⟨none, name⟩ : StatePair)) hp
  rw [epsilons, bracketRight, hright, epsilons_triples_final, List.map_append, List.map_map,
    List.map_map]
  rfl

/-- **Bracketing to the right** carries the triples to the pairs of `a` and `b ∪ c`. -/
theorem relabels_bracketRight (a b c : Automaton α) :
    Blueprint.Relabels (bracketRight b c) (fun t => Known b c (final t)) (triples a b c)
      (blueprint a (b.union c)) where
  keepsApart t t' ht ht' heq := by
    have hfinal : final t = final t' :=
      keepsApart_nameOf b c _ _ ht ht' (congrArg StatePair.right heq)
    have hfirst : t.first = t'.first := congrArg StatePair.left heq
    have hsecond : t.second = t'.second := congrArg StatePair.left hfinal
    have hthird : t.third = t'.third := congrArg StatePair.right hfinal
    cases t
    cases t'
    simp only at hfirst hsecond hthird
    rw [hfirst, hsecond, hthird]
  valid_start := known_start b c
  valid_dead := known_dead b c
  valid_after t ht byte hbyte := known_after ht hbyte
  valid_epsilons t ht t' ht' := by
    rw [epsilons_triples_final, List.mem_append, List.mem_map, List.mem_map] at ht'
    -- an edge of the first one leaves the dead pair behind, one of the last two leads to a known one
    rcases ht' with ⟨e, -, rfl⟩ | ⟨p, hp, rfl⟩
    · exact known_dead b c
    · exact known_of_mem_epsilons ht hp
  start_eq := by
    have hstart : nameOf b c (final (triples a b c).start) = some (b.union c).start :=
      nameOf_start b c
    rw [bracketRight, hstart]
    rfl
  dead_eq := rfl
  after_eq t ht byte hbyte := by
    have hpair : (b.union c).stepFrom (nameOf b c (final t)) byte =
        nameOf b c (after b c (final t) byte) := stepFrom_nameOf ht hbyte
    exact congrArg (fun name => (⟨a.stepFrom t.first byte, name⟩ : StatePair)) hpair
  epsilons_eq t ht := epsilons_bracketRight ht
  payloads_eq t ht := by
    have hpair : (b.union c).payloadsAt (nameOf b c (final t)) =
        (b.payloadsAt t.second ++ c.payloadsAt t.third).eraseDups := payloadsAt_nameOf ht
    calc (a.payloadsAt t.first ++ (b.union c).payloadsAt (nameOf b c (final t))).eraseDups
        = (a.payloadsAt t.first ++
            (b.payloadsAt t.second ++ c.payloadsAt t.third).eraseDups).eraseDups := by rw [hpair]
      _ = (a.payloadsAt t.first ++ (b.payloadsAt t.second ++ c.payloadsAt t.third)).eraseDups :=
        eraseDups_append_right _ _
      _ = (a.payloadsAt t.first ++ b.payloadsAt t.second ++ c.payloadsAt t.third).eraseDups := by
        rw [List.append_assoc]

end BracketRight

end Union

variable [DecidableEq α]

/-- Both bracketings are built from the triples. -/
theorem nodes_union_assoc (a b c : Automaton α) :
    ((a.union b).union c).nodes = (a.union (b.union c)).nodes := by
  -- what is built from the images is built from the triples, and only one array is
  have hleft := (Union.relabels_bracketLeft a b c).builds (Union.builds_union (a.union b) c)
  have hright := (Union.relabels_bracketRight a b c).builds (Union.builds_union a (b.union c))
  exact hleft.unique hright

omit [DecidableEq α] in
/-- Automata with the same states and the same start are the same: the closures are worked out from
the states. -/
theorem ext_of_nodes {fa fa' : Automaton α} (hnodes : fa.nodes = fa'.nodes)
    (hstart : fa.start = fa'.start) : fa = fa' := by
  obtain ⟨⟨nodes, start, _, _⟩, closures, hclosures⟩ := fa
  obtain ⟨⟨nodes', start', _, _⟩, closures', hclosures'⟩ := fa'
  simp only at hnodes hstart hclosures hclosures'
  -- the closures are not compared: each of them is a function of the nodes
  subst hnodes hstart hclosures hclosures'
  rfl

/-- **The union is associative**, state by state. -/
theorem union_assoc (a b c : Automaton α) : (a.union b).union c = a.union (b.union c) := by
  apply ext_of_nodes (nodes_union_assoc a b c)
  rw [Union.start_union, Union.start_union]

end Automaton

namespace Snapshot

variable [DecidableEq α]

/-- **Extending is associative.** Whether a published automaton is extended by two others one after
the other or at once by the union of the two, and under whatever identities the editions are
published, the last edition is of the same lineage, and it is the same automaton: start, states and
closures are equal, number by number and entry by entry. -/
theorem extend_extend (a b c : Snapshot α) (idFirst idSecond idInner idAtOnce : Nat) :
    let oneByOne := (a.extend idFirst b.automaton).extend idSecond c.automaton
    let atOnce := a.extend idAtOnce (b.extend idInner c.automaton).automaton
    oneByOne.lineage = atOnce.lineage ∧ oneByOne.automaton = atOnce.automaton :=
  ⟨rfl, Automaton.union_assoc a.automaton b.automaton c.automaton⟩

end Snapshot

end ByteMatch
