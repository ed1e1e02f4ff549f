import ByteMatch.Table

/-!
# Sets of states as lists

While a value is walked, the states reached by one byte are listed once each. Short lists keep the
order in which the states were reached; in a list longer than a threshold the states are sorted,
which is how duplicates are found faster there. The choice shows in the order of what is found later
on.
-/

namespace ByteMatch.StateSet

/-- The members of the list once each, in ascending order. -/
def sorted (states : List StateId) : List StateId := (states.mergeSort (· ≤ ·)).eraseReps

/-- The members of the list once each: in ascending order if the list is longer than `threshold`,
otherwise in the order in which they come first. -/
def distinct (threshold : Nat) (states : List StateId) : List StateId :=
  if threshold < states.length then sorted states else states.eraseDups

end ByteMatch.StateSet
