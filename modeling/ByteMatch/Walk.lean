import ByteMatch.Automaton
import ByteMatch.StateSet

/-!
# Walking a value

A walk reads the symbols of a value one by one and collects the payloads of every state that it
comes through, in the order in which it comes to them. `Automaton.trail` is in one state at a time
and reads all there is to read in an automaton without epsilon edges; `Automaton.setTrail` is in a
set of states, and at each byte stands in all of their epsilon closures. `Automaton.traverse` takes
the one that fits the automaton and lists each payload found once, behind those that came in.
-/

namespace ByteMatch

variable {α : Type}

/-- Each payload once: first those that came in, then those found, in the order first met. -/
def collect [DecidableEq α] (incoming found : List α) : List α := (incoming ++ found).eraseDups

namespace Automaton

/-- The payloads met from a state on, epsilon edges being left aside. -/
def trail (fa : Automaton α) : StateId → Bytes → Except Fault (List α)
  | state, [] => .ok (fa.payloads state)
  | state, byte :: rest =>
    match fa.step state byte with
    | none => .ok (fa.payloads state)
    | some next => do
      fa.requireStates [next]
      let found ← trail fa next rest
      return fa.payloads state ++ found

/-- The payloads met from a set of states on. -/
def setTrail (fa : Automaton α) (threshold : Nat) : List StateId → Bytes → Except Fault (List α)
  | states, [] => .ok (fa.payloadsAll (fa.closureAll states))
  | states, byte :: rest =>
    let members := fa.closureAll states
    match StateSet.distinct threshold (fa.stepAll members byte) with
    | [] => .ok (fa.payloadsAll members)
    | next => do
      fa.requireStates next
      let found ← setTrail fa threshold next rest
      return fa.payloadsAll members ++ found

variable [DecidableEq α]

/-- The payloads that `value` collects in a walk from state to state, behind those that came in. -/
def traverseStates (fa : Automaton α) (value : Bytes) (incoming : List α) :
    Except Fault (List α) :=
  collect incoming <$> fa.trail fa.start (symbols value)

/-- The payloads that `value` collects in a walk through sets of states, behind those that came
in. -/
def traverseSets (fa : Automaton α) (threshold : Nat) (value : Bytes) (incoming : List α) :
    Except Fault (List α) :=
  collect incoming <$> fa.setTrail threshold [fa.start] (symbols value)

/-- The payloads that `value` collects, behind those that came in. -/
def traverse (fa : Automaton α) (threshold : Nat) (value : Bytes) (incoming : List α) :
    Except Fault (List α) :=
  if fa.deterministic then fa.traverseStates value incoming
  else fa.traverseSets threshold value incoming

end Automaton

end ByteMatch
