import ByteMatch.Discovery
import ByteMatch.Graph
import ByteMatch.SparseSet

/-!
# Automata

An automaton is a graph together with the epsilon closure of each of its states: all states that can
be reached from it by epsilon edges, the state itself first, in the order of discovery. The closures
are worked out once, by `Graph.seal`, and are then looked up by every walk.
-/

namespace ByteMatch

variable {α : Type}

/-- Where the epsilon edges of a state lead; nowhere for a state that is not there. -/
def epsilonTargets (nodes : Array (Node α)) (state : StateId) : List StateId :=
  (nodes[state]?.map (·.table.epsilons)).getD []

/-- The closures of the listed states, pushed onto `closures` one after the other. The set `seen` is
emptied and used again for each of them. -/
def pushClosures (nodes : Array (Node α)) :
    List StateId → SparseSet nodes.size → Array (List StateId) → Array (List StateId)
  | [], _, closures => closures
  | state :: states, seen, closures =>
    let seen :=
      Discovery.explore SparseSet.insert (epsilonTargets nodes) nodes.size seen.clear state
    pushClosures nodes states seen (closures.push seen.toList)

/-- The epsilon closure of every state. -/
def epsilonClosures (nodes : Array (Node α)) : Array (List StateId) :=
  pushClosures nodes (List.range nodes.size) (SparseSet.empty nodes.size) #[]

/-- A graph with the epsilon closures of its states. -/
structure Automaton (α : Type) extends Graph α where
  closures : Array (List StateId)
  closures_eq : closures = epsilonClosures nodes

/-- Works out the closures of a finished graph. -/
def Graph.seal (g : Graph α) : Automaton α := ⟨g, epsilonClosures g.nodes, rfl⟩

namespace Automaton

/-- The automaton that matches nothing: a single state that leads nowhere. -/
def empty : Automaton α := (Graph.single []).seal

/-- The number of states. -/
def size (fa : Automaton α) : Nat := fa.nodes.size

/-- Whether no state has an epsilon edge, so that a walk is in one state at a time. -/
def deterministic (fa : Automaton α) : Bool := fa.nodes.all (·.table.epsilons.isEmpty)

/-- Where `byte` leads from a state; nowhere from a state that is not there. -/
def step (fa : Automaton α) (state : StateId) (byte : UInt8) : Option StateId :=
  match fa.nodes[state]? with
  | none => none
  | some node => node.table.step byte

/-- The payloads of a state; none for a state that is not there. -/
def payloads (fa : Automaton α) (state : StateId) : List α :=
  match fa.nodes[state]? with
  | none => []
  | some node => node.payloads

/-- The epsilon closure of a state; empty for a state that is not there. -/
def closure (fa : Automaton α) (state : StateId) : List StateId := fa.closures[state]?.getD []

/-- Where `byte` leads from the states listed. -/
def stepAll (fa : Automaton α) (states : List StateId) (byte : UInt8) : List StateId :=
  states.filterMap (fa.step · byte)

/-- The closures of the states listed. -/
def closureAll (fa : Automaton α) (states : List StateId) : List StateId :=
  states.flatMap fa.closure

/-- The payloads of the states listed. -/
def payloadsAll (fa : Automaton α) (states : List StateId) : List α :=
  states.flatMap fa.payloads

/-- Checks that the states listed are there. -/
def requireStates (fa : Automaton α) (states : List StateId) : Except Fault Unit :=
  match states.find? fun state => ¬ state < fa.size with
  | none => .ok ()
  | some state => .error (.stepOutside state)

end Automaton

end ByteMatch
