import ByteMatch.Columns
import ByteMatch.Compaction
import ByteMatch.Walk

/-!
# Walks that check every look-up

A walk looks up states in its automaton, targets in the columns of a table, and places in the list
out of which it takes duplicates. The walks of `Automaton.traverse` check the states that a byte leads
to, and for the rest read nothing from a place that is not there. The walks here look up one place
after the other and fault at the first that is not there; and the walk from state to state faults if
it is asked to walk an automaton with epsilon edges, which it would not see.
-/

namespace ByteMatch

variable {α : Type}

/-- Where `byte` leads, looked up in the columns of the table. -/
def Table.checkedStep (table : Table) (byte : UInt8) : Except Fault (Option StateId) :=
  match (ColumnTable.ofTable table).step byte with
  | none => .error (.targetOutside byte)
  | some target => .ok target

/-- `distinct`, in the room that the states have. -/
def StateSet.checkedDistinct (threshold : Nat) (states : List StateId) :
    Except Fault (List StateId) :=
  match dedupe threshold states.toArray with
  | none => .error (.compactionOutside states.length)
  | some kept => .ok kept.toList

namespace Automaton

/-- The state of this number. -/
def lookUp (fa : Automaton α) (state : StateId) : Except Fault (Node α) :=
  match fa.nodes[state]? with
  | none => .error (.stepOutside state)
  | some node => .ok node

/-- The closure of the state of this number. -/
def lookUpClosure (fa : Automaton α) (state : StateId) : Except Fault (List StateId) :=
  match fa.closures[state]? with
  | none => .error (.stepOutside state)
  | some closure => .ok closure

/-- Comes through a state: its payloads, and where `byte` leads from it. -/
def visit (fa : Automaton α) (byte : UInt8) (state : StateId) :
    Except Fault (List α × Option StateId) := do
  let node ← fa.lookUp state
  let target ← node.table.checkedStep byte
  return (node.payloads, target)

/-- Comes through all states in the closures of those listed. -/
def visitAll (fa : Automaton α) (byte : UInt8) (states : List StateId) :
    Except Fault (List (List α × Option StateId)) :=
  states.flatMapM fun state => do
    let closure ← fa.lookUpClosure state
    closure.mapM (fa.visit byte)

/-- The payloads in the closures of the states listed. -/
def checkedPayloads (fa : Automaton α) (states : List StateId) : Except Fault (List α) :=
  states.flatMapM fun state => do
    let closure ← fa.lookUpClosure state
    closure.flatMapM fun member => Node.payloads <$> fa.lookUp member

/-- `trail` with every look-up checked. -/
def checkedTrail (fa : Automaton α) : StateId → Bytes → Except Fault (List α)
  | state, [] => Node.payloads <$> fa.lookUp state
  | state, byte :: rest => do
    match ← fa.visit byte state with
    | (here, none) => return here
    | (here, some next) =>
      let found ← checkedTrail fa next rest
      return here ++ found

/-- `setTrail` with every look-up checked. -/
def checkedSetTrail (fa : Automaton α) (threshold : Nat) :
    List StateId → Bytes → Except Fault (List α)
  | states, [] => fa.checkedPayloads states
  | [], _ :: _ => .ok []
  | states, byte :: rest => do
    let visited ← fa.visitAll byte states
    let next ← StateSet.checkedDistinct threshold (visited.filterMap Prod.snd)
    let found ← checkedSetTrail fa threshold next rest
    return visited.flatMap Prod.fst ++ found

variable [DecidableEq α]

/-- `traverseStates` with every look-up checked, for automata without epsilon edges only. -/
def checkedTraverseStates (fa : Automaton α) (value : Bytes) (incoming : List α) :
    Except Fault (List α) :=
  if fa.deterministic then collect incoming <$> fa.checkedTrail fa.start (symbols value)
  else .error .epsilonsIgnored

/-- `traverseSets` with every look-up checked. -/
def checkedTraverseSets (fa : Automaton α) (threshold : Nat) (value : Bytes) (incoming : List α) :
    Except Fault (List α) :=
  collect incoming <$> fa.checkedSetTrail threshold [fa.start] (symbols value)

/-- `traverse` with every look-up checked. -/
def checkedTraverse (fa : Automaton α) (threshold : Nat) (value : Bytes) (incoming : List α) :
    Except Fault (List α) :=
  if fa.deterministic then fa.checkedTraverseStates value incoming
  else fa.checkedTraverseSets threshold value incoming

end Automaton

end ByteMatch
