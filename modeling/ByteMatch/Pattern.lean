import ByteMatch.Pattern.Caseless
import ByteMatch.Pattern.Exclusion
import ByteMatch.Pattern.Glob
import ByteMatch.Pattern.Literal

/-!
# Patterns

The kinds of pattern that a value can be matched against, and the automaton of each.
-/

namespace ByteMatch

/-- What a value is asked for. -/
inductive Pattern where
  /-- To be these bytes. -/
  | exactly (bytes : Bytes)
  /-- To begin with these bytes. -/
  | beginning (bytes : Bytes)
  /-- To be what a shell-style pattern stands for. -/
  | shell (pattern : Bytes)
  /-- To be what a wildcard pattern stands for. -/
  | wildcard (pattern : Bytes)
  /-- To be this text, but for the case of its characters. -/
  | caseless (text : List Char)
  /-- To be none of these. -/
  | noneOf (excluded : List Bytes)
deriving DecidableEq, Repr

namespace Pattern

variable {α : Type}

/-- The automaton that gives `payload` to the values that match the pattern. Only a wildcard pattern
can be refused. -/
def automaton (pattern : Pattern) (payload : α) : Except PatternError (Automaton α) :=
  match pattern with
  | exactly bytes => .ok (Literal.whole bytes payload)
  | beginning bytes => .ok (Literal.beginning bytes payload)
  | shell pattern => .ok ((Glob.ofShell pattern).automaton payload)
  | wildcard pattern => (Glob.automaton · payload) <$> Glob.ofWildcard pattern
  | caseless text => .ok (Caseless.automaton CaseMap.unicode text payload)
  | noneOf excluded => .ok (Exclusion.automaton excluded payload)

end Pattern

end ByteMatch
