import ByteMatch.Automaton
import ByteMatch.Numbering

/-!
# The union of two automata

The union walks both automata at once. Its states are the pairs of a state of either that such a
walk can come to, one of the two being missing where the walk has died out on that side:

* a byte leads a pair to the pair of where it leads either part, a dead end if it leads neither on;
* an epsilon edge of one part splits off a walk on that side alone.

The pairs are numbered in the order in which they are discovered from the pair of start states,
which is therefore the state 0 of the union.
-/

namespace ByteMatch

variable {α : Type}

/-- A state of either automaton, or none on a side where the walk has died out. -/
structure StatePair where
  left : Option StateId
  right : Option StateId
deriving DecidableEq, Repr

namespace StatePair

/-- The pair at which no walk is left. -/
def dead : StatePair := ⟨none, none⟩

end StatePair

namespace Automaton

/-- The table of a state; that of a state that is missing or not there leads nowhere. -/
def tableAt (fa : Automaton α) (state : Option StateId) : Table :=
  match state.bind fun s => fa.nodes[s]? with
  | none => Table.empty
  | some node => node.table

/-- The payloads of a state; none for a state that is missing or not there. -/
def payloadsAt (fa : Automaton α) (state : Option StateId) : List α :=
  match state with
  | none => []
  | some s => fa.payloads s

/-- A list that names every state a walk can come to, and a missing one. -/
def stateNames (fa : Automaton α) : List (Option StateId) :=
  none :: (List.range fa.size).map some ++
    fa.nodes.toList.flatMap fun node => node.table.steps.values

namespace Union

/-- Where each byte leads a pair. -/
def steps (a b : Automaton α) (p : StatePair) : Runs StatePair :=
  let left := a.tableAt p.left
  let right := b.tableAt p.right
  Runs.tabulate alphabetSize (left.steps.ends ++ right.steps.ends)
    fun i => ⟨left.target i, right.target i⟩

/-- Where the epsilon edges of the two parts lead a pair. -/
def epsilons (a b : Automaton α) (p : StatePair) : List StatePair :=
  (a.tableAt p.left).epsilons.map (fun e => ⟨some e, none⟩) ++
    (b.tableAt p.right).epsilons.map (fun e => ⟨none, some e⟩)

/-- All that follows a pair: first by bytes, then by epsilon edges. -/
def next (a b : Automaton α) (p : StatePair) : List StatePair :=
  ((steps a b p).values ++ epsilons a b p).filter (· ≠ StatePair.dead)

/-- The pairs that can be reached, numbered. -/
def pairs (a b : Automaton α) : Numbering StatePair :=
  Discovery.explore Numbering.insert (next a b) (a.stateNames.length * b.stateNames.length)
    Numbering.empty ⟨some a.start, some b.start⟩

/-- The state of the union that stands for a pair; none for the pair at which no walk is left. -/
def stateFor (numbering : Numbering StatePair) (p : StatePair) : Option StateId :=
  if p = StatePair.dead then none else numbering.index? p

/-- What the state for a pair does. -/
def node [DecidableEq α] (a b : Automaton α) (numbering : Numbering StatePair) (p : StatePair) :
    Node α where
  table := {
    steps := (steps a b p).mapValues (stateFor numbering)
    epsilons := (epsilons a b p).filterMap (stateFor numbering) }
  payloads := (a.payloadsAt p.left ++ b.payloadsAt p.right).eraseDups

theorem stateFor_lt {numbering : Numbering StatePair} {p : StatePair} {s : StateId}
    (h : stateFor numbering p = some s) : s < numbering.items.size := by
  unfold stateFor at h
  split at h
  · contradiction
  · exact Numbering.index?_lt h

theorem size_pairs_pos (a b : Automaton α) : 0 < (pairs a b).items.size := by
  unfold pairs Discovery.explore
  exact Discovery.run_keeps (P := fun numbering : Numbering StatePair => 0 < numbering.items.size)
    (fun _ p _ => Numbering.size_insert_pos _ p) _ _ _ (Numbering.size_insert_pos _ _)

/-- The graph of the union. -/
def graph [DecidableEq α] (a b : Automaton α) : Graph α where
  nodes := (pairs a b).items.map (node a b (pairs a b))
  start := 0
  start_lt := by simpa using size_pairs_pos a b
  epsilons_lt := by
    intro n hn e he
    obtain ⟨p, -, rfl⟩ := Array.mem_map.1 hn
    obtain ⟨q, -, hq⟩ := List.mem_filterMap.1 he
    simpa using stateFor_lt hq

end Union

/-- The automaton that finds what either of the two finds. -/
def union [DecidableEq α] (a b : Automaton α) : Automaton α := (Union.graph a b).seal

end Automaton

end ByteMatch
