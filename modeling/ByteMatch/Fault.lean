/-!
# Faults

The ways in which a rule that the automata and their walks rely on can be broken: by data handed in from
outside, by a number that leads to a place that is not there, or by bookkeeping that went wrong.
Automata built from patterns, and unions of sound automata, never raise one.
-/

namespace ByteMatch

/-- A rule that was broken by hand-made data, or by bookkeeping that went wrong. -/
inductive Fault where
  /-- An entry, of a table or of a kept set, was asked for a byte that no automaton reads. -/
  | byteOutsideAlphabet (byte : UInt8)
  /-- An automaton was asked for without a start state, or with one that it does not have. -/
  | startOutside (start : Option Nat)
  /-- An epsilon edge leads to a state that the automaton does not have. -/
  | epsilonOutside
  /-- A walk came to a state that the automaton does not have, by a step or out of a cache. -/
  | stepOutside (state : Nat)
  /-- A table has a run that the byte lies in, but no target for the run. -/
  | targetOutside (byte : UInt8)
  /-- While duplicates were taken out of so many states, a place was used that is not there. -/
  | compactionOutside (states : Nat)
  /-- An automaton with epsilon edges was walked from state to state. -/
  | epsilonsIgnored
  /-- A cache was asked for a state set that it does not hold. -/
  | subsetOutside (index : Nat)
  /-- What is cached for one edition was used to walk another one. -/
  | editionMismatch (cached walked : Nat)
  /-- A cache gave back more state sets than were taken out. -/
  | overRelease (held released : Nat)
  /-- A value was cut at a place behind its end. -/
  | placeOutside (place length : Nat)
deriving DecidableEq, Repr

end ByteMatch
