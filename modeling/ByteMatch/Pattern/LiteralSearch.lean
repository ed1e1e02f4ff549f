import ByteMatch.Pattern.LiteralScan

/-!
# Scanning with a finder

A scan that has a routine for searching at hand need not cut the value up: it keeps to a position in
the value and has the routine find each literal from there on. The routine is a parameter here, a
`Finder`, and nothing is known of it but that it finds the first place of a literal
(`Finder.FindsFirst`).
-/

namespace ByteMatch

/-- Looks for a literal in a value, and gives the number of bytes before the place found. -/
abbrev Finder := Bytes → Bytes → Option Nat

namespace Finder

/-- **What is asked of a finder**: the place found is the first one at which the literal stands, and
none is found only if there is none. -/
structure FindsFirst (find : Finder) : Prop where
  stands {literal value : Bytes} {place : Nat} : find literal value = some place →
    literal <+: value.drop place
  first {literal value : Bytes} {place : Nat} : find literal value = some place →
    ∀ earlier < place, ¬ literal <+: value.drop earlier
  nowhere {literal value : Bytes} : find literal value = none →
    ∀ place, ¬ literal <+: value.drop place

/-- Tries one place after the other. -/
def plain (literal : Bytes) : Bytes → Option Nat
  | [] => if literal.isEmpty then some 0 else none
  | b :: rest =>
    if literal.isPrefixOf (b :: rest) then some 0 else (plain literal rest).map (· + 1)

end Finder

namespace LiteralScan

/-- The position behind the literals, each taken where it is found first from behind the one before
it on. -/
def behindAll (find : Finder) (value : Bytes) : List Bytes → (position : Nat) → Option Nat
  | [], position => some position
  | literal :: literals, position =>
    match find literal (value.drop position) with
    | none => none
    | some place => behindAll find value literals (position + place + literal.length)

/-- Whether the literals are found from the position on: all but the last of them anywhere, and the
last one anywhere as well if `endsWild`, otherwise at the end of the value. -/
def floatingBy (find : Finder) (endsWild : Bool) (value : Bytes) (literals : List Bytes)
    (position : Nat) : Bool :=
  match literals.getLast? with
  | none => true
  | some last =>
    match behindAll find value literals.dropLast position with
    | none => false
    | some position =>
      if endsWild then (find last (value.drop position)).isSome
      else last.isSuffixOf (value.drop position)

/-- Whether the value matches, the literals being looked for by `find`. -/
def isMatchBy (find : Finder) (scan : LiteralScan) (value : Bytes) : Bool :=
  if value.length < scan.minLength || value.any (fun b => ! InAlphabet b) then false
  else
    match scan.literals with
    -- a pattern of stars
    | [] => true
    | first :: rest =>
      if scan.startsWild then floatingBy find scan.endsWild value (first :: rest) 0
      else if ! first.isPrefixOf value then false
      -- a single literal, which is the first as well as the last
      else if rest.isEmpty then scan.endsWild || value.length == first.length
      else floatingBy find scan.endsWild value rest first.length

end LiteralScan

end ByteMatch
