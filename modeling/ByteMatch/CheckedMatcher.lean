import ByteMatch.Cache.CheckedWalk
import ByteMatch.Matcher
import ByteMatch.Pattern.LiteralSearch

/-!
# Matching with every look-up checked

A scan with a finder goes on from a position in the value, and takes what follows it. Behind the end of
the value nothing follows, and `LiteralScan.isMatchBy` reads just that; the scan here faults instead.
`Matcher.checkedMatchValue` matches by such scans and by walks that check every look-up.
-/

namespace ByteMatch

variable {α : Type}

/-- What follows a place in the value. -/
def behind (value : Bytes) (place : Nat) : Except Fault Bytes :=
  if place ≤ value.length then .ok (value.drop place)
  else .error (.placeOutside place value.length)

namespace LiteralScan

/-- `behindAll` with every place checked. -/
def checkedBehindAll (find : Finder) (value : Bytes) :
    List Bytes → (position : Nat) → Except Fault (Option Nat)
  | [], position => .ok (some position)
  | literal :: literals, position => do
    let rest ← behind value position
    match find literal rest with
    | none => return none
    | some place =>
      checkedBehindAll find value literals (position + place + literal.length)

/-- `floatingBy` with every place checked. -/
def checkedFloatingBy (find : Finder) (endsWild : Bool) (value : Bytes) (literals : List Bytes)
    (position : Nat) : Except Fault Bool :=
  match literals.getLast? with
  | none => .ok true
  | some last => do
    match ← checkedBehindAll find value literals.dropLast position with
    | none => return false
    | some position =>
      let rest ← behind value position
      return if endsWild then (find last rest).isSome else last.isSuffixOf rest

/-- `isMatchBy` with every place checked. -/
def checkedIsMatchBy (find : Finder) (scan : LiteralScan) (value : Bytes) : Except Fault Bool :=
  if value.length < scan.minLength || value.any (fun b => ! InAlphabet b) then .ok false
  else
    match scan.literals with
    -- a pattern of stars
    | [] => .ok true
    | first :: rest =>
      if scan.startsWild then checkedFloatingBy find scan.endsWild value (first :: rest) 0
      else if ! first.isPrefixOf value then .ok false
      -- a single literal, which is the first as well as the last
      else if rest.isEmpty then .ok (scan.endsWild || value.length == first.length)
      else checkedFloatingBy find scan.endsWild value rest first.length

end LiteralScan

namespace Matcher

/-- `scanned` with every place checked. -/
def checkedScanned (matcher : Matcher α) (find : Finder) (value : Bytes) :
    Except Fault (List α) :=
  matcher.scans.flatMapM fun entry => do
    let found ← entry.1.checkedIsMatchBy find value
    return if found then [entry.2] else []

/-- `matchValue` with every look-up checked. -/
def checkedMatchValue [DecidableEq α] (matcher : Matcher α) (find : Finder) (ctx : Context α)
    (value : Bytes) (incoming : List α) : Except Fault (List α × Context α) := do
  let scanned ← matcher.checkedScanned find value
  let known := collect incoming scanned
  if matcher.united = 0 then return (known, ctx)
  else ctx.checkedTraverseCached matcher.snapshot value known

end Matcher

end ByteMatch
