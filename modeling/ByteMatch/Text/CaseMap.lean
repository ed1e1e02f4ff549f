import ByteMatch.Text.CaseTable

/-!
# Case mappings

A case mapping gives every character its lowercase and its uppercase form, each of which may be
several characters long. `CaseMap.forms` lists what one character may be written as where case does
not count; `CaseMap.unicode` is the mapping of Unicode.
-/

namespace ByteMatch

/-- A lowercase and an uppercase form for every character. -/
structure CaseMap where
  lower : Char → List Char
  upper : Char → List Char

namespace CaseMap

/-- The only element of a list that has just one. -/
def only? : List Char → Option Char
  | [c] => some c
  | _ => none

/-- A character and its lowercase and uppercase forms, so far as these are single characters, each
listed once. -/
def forms (cases : CaseMap) (c : Char) : List Char :=
  (c :: ((only? (cases.lower c)).toList ++ (only? (cases.upper c)).toList)).eraseDups

/-- Looks a character up in a table of ranges and a list of expansions. -/
def ofTable (ranges : List CaseRange) (expansions : List (Nat × List Nat)) (c : Char) : List Char :=
  match expansions.lookup c.toNat with
  | some codes => codes.map Char.ofNat
  | none =>
    match ranges.find? fun r =>
        r.first ≤ c.toNat ∧ c.toNat ≤ r.last ∧ (c.toNat - r.first) % r.stride = 0 with
    | some r => [Char.ofNat (c.toNat + r.shift).toNat]
    | none => [c]

/-- The case mapping of Unicode. -/
def unicode : CaseMap where
  lower := ofTable CaseTable.lowerRanges CaseTable.lowerExpansions
  upper := ofTable CaseTable.upperRanges CaseTable.upperExpansions

end CaseMap

end ByteMatch
