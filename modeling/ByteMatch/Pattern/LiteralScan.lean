import ByteMatch.Pattern.Glob

/-!
# Globs matched without an automaton

A shell-style pattern is a sequence of literals with stars between them. A value matches it if the
literals are found in it one after the other: taking each of them where it comes first leaves the
most room for the next one, so one pass over the value decides. A pattern that does not begin with a
star has its first literal at the beginning of the value, and one that does not end with a star has
its last literal at the end.
-/

namespace ByteMatch

/-- A shell-style pattern cut at its stars. -/
structure LiteralScan where
  /-- The literals between the stars, in order, none of them empty. -/
  literals : List Bytes
  /-- Whether a star comes first. -/
  startsWild : Bool
  /-- Whether a star comes last. -/
  endsWild : Bool
deriving DecidableEq, Repr

namespace LiteralScan

/-- Cuts a pattern at its stars. -/
def segments : Bytes → List Bytes
  | [] => [[]]
  | b :: rest =>
    if b = starByte then [] :: segments rest
    else
      match segments rest with
      | [] => [[b]]
      | segment :: more => (b :: segment) :: more

/-- The bytes `?`, `[` and backslash, which are left to other kinds of pattern. -/
def reserved : Bytes := [63, 91, escapeByte]

/-- The scan for a pattern; `none` if the pattern is empty or has a reserved byte. -/
def ofPattern (pattern : Bytes) : Option LiteralScan :=
  if pattern.isEmpty || pattern.any (reserved.contains ·) then none
  else
    let literals := (segments pattern).filter (! ·.isEmpty)
    some {
      literals
      startsWild := literals.isEmpty || pattern.head? == some starByte
      endsWild := literals.isEmpty || pattern.getLast? == some starByte }

/-- The byte that stands around a quoted pattern. -/
def quoteByte : UInt8 := 34

/-- The scan for a pattern between double quotes; `none` if a quote is missing. -/
def ofQuoted (quoted : Bytes) : Option LiteralScan :=
  match quoted with
  | [] => none
  | first :: rest =>
    if first = quoteByte ∧ rest.getLast? = some quoteByte then ofPattern rest.dropLast else none

/-- What follows the first place in `value` at which `literal` stands. -/
def afterFirst (literal : Bytes) (value : Bytes) : Option Bytes :=
  if literal.isPrefixOf value then some (value.drop literal.length)
  else
    match value with
    | [] => none
    | _ :: rest => afterFirst literal rest

/-- Whether the literals, each with a star before it, and after the last of them a star if
`endsWild`, stand for `value`. -/
def floating (endsWild : Bool) : List Bytes → Bytes → Bool
  | [], value => endsWild || value.isEmpty
  | [last], value => if endsWild then (afterFirst last value).isSome else last.isSuffixOf value
  | literal :: rest, value =>
    match afterFirst literal value with
    | none => false
    | some value => floating endsWild rest value

/-- The combined length of the literals. -/
def minLength (scan : LiteralScan) : Nat := scan.literals.flatten.length

/-- Whether the literals are found in the value as the pattern asks for them. -/
def finds (scan : LiteralScan) (value : Bytes) : Bool :=
  if scan.startsWild then floating scan.endsWild scan.literals value
  else
    match scan.literals with
    | [] => value.isEmpty
    | first :: rest =>
      first.isPrefixOf value && floating scan.endsWild rest (value.drop first.length)

/-- Whether the value matches. A value shorter than the literals together need not be looked at. A
star stands for bytes that an automaton reads, so a value with any other byte in it never matches. -/
def isMatch (scan : LiteralScan) (value : Bytes) : Bool :=
  if value.length < scan.minLength || value.any (fun b => ! InAlphabet b) then false
  else scan.finds value

/-- Whether a value matches a pattern between double quotes. Nothing matches a pattern for which
there is no scan. -/
def matchesQuoted (quoted value : Bytes) : Bool :=
  match ofQuoted quoted with
  | none => false
  | some scan => scan.isMatch value

end LiteralScan

end ByteMatch
