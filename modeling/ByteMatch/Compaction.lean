import ByteMatch.StateSet

/-!
# Duplicates taken out in place

`StateSet.distinct` in the room that the states have. In an array that is not too long each place is
read in turn, and what stands there is written behind what is kept already, unless it is kept
itself; what remains behind the kept states at the end is cut off. So places are written to while
others are still to be read. A longer array is sorted.

A place that is read or written to may not be there, and then there is no result.
-/

namespace ByteMatch

/-- States some of which have been read; those that are kept stand in the first places. -/
structure Compaction where
  states : Array StateId
  /-- The number of states that are kept. -/
  kept : Nat
deriving DecidableEq, Repr

namespace Compaction

/-- Reads place `i`, and keeps what stands there unless it is kept already. -/
def take (compaction : Compaction) (i : Nat) : Option Compaction :=
  match compaction.states[i]? with
  | none => none
  | some state =>
    if compaction.states.size < compaction.kept then none
    else if state ∈ compaction.states.take compaction.kept then some compaction
    else if h : compaction.kept < compaction.states.size then
      some ⟨compaction.states.set compaction.kept state h, compaction.kept + 1⟩
    else none

end Compaction

namespace StateSet

/-- Keeps the first of each state that stands in the array more than once. -/
def compact (states : Array StateId) : Option (Array StateId) :=
  ((List.range states.size).foldlM Compaction.take ⟨states, 0⟩).map fun compaction =>
    compaction.states.take compaction.kept

/-- Takes out duplicates: by sorting if there are more than `threshold` states. -/
def dedupe (threshold : Nat) (states : Array StateId) : Option (Array StateId) :=
  if states.size < 2 then some states
  else if threshold < states.size then some (sorted states.toList).toArray
  else compact states

end StateSet

end ByteMatch
