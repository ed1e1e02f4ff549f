import ByteMatch.Cache.Context
import ByteMatch.Pattern
import ByteMatch.Pattern.LiteralScan

/-!
# Matchers

A matcher holds all patterns that the values of one field are matched against. Shell-style patterns
are matched by scanning where that is possible; all other patterns are united in one automaton, of
which each addition publishes a new edition.
-/

namespace ByteMatch

/-- The patterns of one field. -/
structure Matcher (α : Type) where
  /-- The current edition of the united automaton. -/
  snapshot : Snapshot α
  /-- The patterns that are matched by scanning, in the order added. -/
  scans : List (LiteralScan × α)
  /-- The number of patterns in the automaton. -/
  united : Nat

namespace Matcher

variable {α : Type}

/-- A matcher without patterns, which publishes its automaton under `id`. -/
def empty (id : Nat) : Matcher α := ⟨Snapshot.first id Automaton.empty, [], 0⟩

/-- The number of patterns. -/
def patternCount (matcher : Matcher α) : Nat := matcher.united + matcher.scans.length

/-- Adds an automaton and publishes the union under `id`. -/
def addAutomaton [DecidableEq α] (matcher : Matcher α) (id : Nat) (fa : Automaton α) : Matcher α :=
  { matcher with snapshot := matcher.snapshot.extend id fa, united := matcher.united + 1 }

/-- Adds a pattern that is matched by scanning. -/
def addScan (matcher : Matcher α) (scan : LiteralScan) (payload : α) : Matcher α :=
  { matcher with scans := matcher.scans ++ [(scan, payload)] }

/-- The scan by which a pattern can be matched. -/
def scanFor? : Pattern → Option LiteralScan
  | .shell pattern => LiteralScan.ofPattern pattern
  | _ => none

/-- Adds a pattern. If that changes the automaton, its new edition is published under `id`. -/
def add [DecidableEq α] (matcher : Matcher α) (id : Nat) (pattern : Pattern) (payload : α) :
    Except PatternError (Matcher α) :=
  match scanFor? pattern with
  | some scan => .ok (matcher.addScan scan payload)
  | none => matcher.addAutomaton id <$> pattern.automaton payload

/-- The payloads of the patterns that are matched by scanning and match `value`. -/
def scanned (matcher : Matcher α) (value : Bytes) : List α :=
  (matcher.scans.filter fun entry => entry.1.isMatch value).map Prod.snd

/-- The payloads of all patterns that `value` matches, each once: first those that came in, then
those found by scanning, then those that the automaton finds. -/
def matchValue [DecidableEq α] (matcher : Matcher α) (ctx : Context α) (value : Bytes)
    (incoming : List α) : Except Fault (List α × Context α) :=
  let known := collect incoming (matcher.scanned value)
  if matcher.united = 0 then .ok (known, ctx)
  else ctx.traverseCached matcher.snapshot value known

end Matcher

end ByteMatch
