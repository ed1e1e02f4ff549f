import ByteMatch.Pattern.Branch

/-!
# All values but some

The automaton that matches every value outside a list follows the listed values byte by byte. A byte
that leaves all of them leads to success at once, and so does the terminator, unless it comes where
one of the listed values ends.
-/

namespace ByteMatch.Exclusion

variable {α : Type}

/-- What the terminator does where these remainders are left: it is a dead end if one of them ends
here. -/
def endings (remainders : List Bytes) : List (UInt8 × Option StateId) :=
  if [] ∈ remainders then [(terminator, none)] else []

/-- Puts in front what tells the remainders listed from all others, which lead to `success`.
No remainder is longer than `depth`. -/
def prependTree (success : StateId) : (depth : Nat) → List Bytes → Graph α → Graph α
  | 0, remainders, g => g.prependSteps (some success) (endings remainders)
  | depth + 1, remainders, g =>
    match g.prependBranches (fun g tails =>
        let g := prependTree success depth tails g
        (g, g.start)) (branches remainders) with
    | (g, entries) => g.prependSteps (some success) (endings remainders ++ entries)

/-- Matches every value that is not listed. -/
def automaton (excluded : List Bytes) (payload : α) : Automaton α :=
  let g := Graph.accept payload
  (prependTree g.start (maxLength excluded) excluded g).seal

end ByteMatch.Exclusion
