import ByteMatch.Automaton

/-!
# Whole values and beginnings of values

Automata for a value given byte by byte (`Literal.whole`), and for all values that begin with given
bytes (`Literal.beginning`). The latter matches only once it has read the byte that follows the
beginning, which may be the terminator.
-/

namespace ByteMatch.Literal

variable {α : Type}

/-- Matches the value `bytes`. -/
def whole (bytes : Bytes) (payload : α) : Automaton α :=
  ((Graph.accept payload).prependEnd.prependBytes bytes).seal

/-- Asks for any byte of the alphabet in front. -/
def prependAny (g : Graph α) : Graph α := g.prependSteps (some g.start) []

/-- Matches every value that begins with `bytes`. -/
def beginning (bytes : Bytes) (payload : α) : Automaton α :=
  ((prependAny (Graph.accept payload)).prependBytes bytes).seal

end ByteMatch.Literal
