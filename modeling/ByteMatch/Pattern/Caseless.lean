import ByteMatch.Pattern.Branch
import ByteMatch.Text.CaseMap

/-!
# Values in which case does not count

Every character of the text may be written as any of its forms under a case mapping. The forms of
one character are branches of a small tree over their UTF-8 encodings, which join again in the state
that waits for the next character. No encoding is a beginning of another one, so a branch ends only
where all strings on it do.
-/

namespace ByteMatch.Caseless

variable {α : Type}

/-- Puts in front what reads any one of `choices`, all of which lead to `target`. No choice is
longer than `depth`. -/
def prependChoice (target : StateId) : (depth : Nat) → List Bytes → Graph α → Graph α
  | 0, _, g => g
  | depth + 1, choices, g =>
    match g.prependBranches (fun g tails =>
        if [] ∈ tails then (g, target)
        else
          let g := prependChoice target depth tails g
          (g, g.start)) (branches choices) with
    | (g, entries) => g.prependSteps none entries

/-- Asks for a character in front, in any of its forms. -/
def prependChar (cases : CaseMap) (c : Char) (g : Graph α) : Graph α :=
  let encodings := (cases.forms c).map String.utf8EncodeChar
  prependChoice g.start (maxLength encodings) encodings g

/-- Matches every spelling of `text` that differs from it in case only. -/
def automaton (cases : CaseMap) (text : List Char) (payload : α) : Automaton α :=
  (text.foldr (prependChar cases) (Graph.accept payload).prependEnd).seal

end ByteMatch.Caseless
