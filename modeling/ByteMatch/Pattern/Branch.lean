import ByteMatch.Automaton

/-!
# Branching on the next byte

Byte strings that go different ways are told apart one byte at a time, those that begin alike
sharing the states of their common beginning. `branches` sorts a list of byte strings by their first
byte; the functions on top of it put a tree of states in front of a graph, the branches of a state
before the state itself and in ascending order of their bytes.
-/

namespace ByteMatch

variable {α : Type}

/-- What follows `b` in the strings that begin with it. -/
def tailsAfter (b : UInt8) (strings : List Bytes) : List Bytes :=
  strings.filterMap fun
    | [] => none
    | c :: rest => if c = b then some rest else none

/-- The first bytes of the strings, in ascending order, each with what follows it. Strings that are
empty, or begin with a byte that no automaton reads, are left out. -/
def branches (strings : List Bytes) : List (UInt8 × List Bytes) :=
  alphabet.filterMap fun b =>
    match tailsAfter b strings with
    | [] => none
    | tails => some (b, tails)

/-- The length of the longest string. -/
def maxLength (strings : List Bytes) : Nat := (strings.map List.length).foldl max 0

/-- Puts the states of all branches in front, one branch after the other, and tells where each byte
leads. `target` puts one branch in front and tells where its byte is to lead. -/
def Graph.prependBranches (target : Graph α → List Bytes → Graph α × StateId) :
    List (UInt8 × List Bytes) → Graph α → Graph α × List (UInt8 × Option StateId)
  | [], g => (g, [])
  | (b, tails) :: rest, g =>
    match target g tails with
    | (g, state) =>
      match prependBranches target rest g with
      | (g, entries) => (g, (b, some state) :: entries)

end ByteMatch
