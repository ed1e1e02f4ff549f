import ByteMatch.Pattern.LiteralScan

/-!
# Patterns read in segments

A glob has a token for each byte. A pattern can also be read in longer parts: its stars, and the
literals that stand between them, of which none is empty and no two come one behind the other. The
two styles of writing are read in two ways:

* in shell style the pattern is cut at its stars, and each piece but the first has the star before it
  (`Segment.ofShell`);
* in wildcard style an asterisk need not be a star, so the pattern is gone through byte by byte, and
  bytes are gathered for a literal until a star comes (`Segment.ofWildcard`).
-/

namespace ByteMatch

/-- A part of a pattern. -/
inductive Segment where
  /-- Bytes that stand for themselves. -/
  | literal (bytes : Bytes)
  /-- Any number of any bytes. -/
  | star
deriving DecidableEq, Repr

namespace Segment

variable {α : Type}

/-- A literal, which is left out if it has no bytes. -/
def ofLiteral (bytes : Bytes) : List Segment := if bytes.isEmpty then [] else [literal bytes]

/-- A piece of a pattern that was cut at its stars, with the star before it. No star stands before the
first piece. -/
def ofPiece (place : Nat) (piece : Bytes) : List Segment :=
  (if 0 < place then [star] else []) ++ ofLiteral piece

/-- Reads a shell-style pattern. -/
def ofShell (pattern : Bytes) : List Segment :=
  (LiteralScan.segments pattern).zipIdx.flatMap fun (piece, place) => ofPiece place piece

/-- Reads the rest of a wildcard pattern, of which `position` bytes have been read: the segments
`segments`, and the bytes `gathered` of a literal that may still go on. -/
def readWildcard (pattern : Bytes) (segments : List Segment) (gathered : Bytes) (position : Nat) :
    Except PatternError (List Segment) :=
  if h : position < pattern.length then
    if pattern[position] = starByte then
      readWildcard pattern (segments ++ ofLiteral gathered ++ [star]) [] (position + 1)
    else if pattern[position] = escapeByte then
      match pattern[position + 1]? with
      | none => .error .trailingBackslash
      | some c =>
        if c = starByte ∨ c = escapeByte then
          readWildcard pattern segments (gathered ++ [c]) (position + 2)
        else .error (.invalidEscape c position)
    else readWildcard pattern segments (gathered ++ [pattern[position]]) (position + 1)
  else .ok (segments ++ ofLiteral gathered)
termination_by pattern.length - position

/-- Reads a wildcard pattern. -/
def ofWildcard (pattern : Bytes) : Except PatternError (List Segment) :=
  readWildcard pattern [] [] 0

/-- Asks for what the segment stands for in front. -/
def prepend (g : Graph α) : Segment → Graph α
  | literal bytes => g.prependBytes bytes
  | star => g.prependStar

/-- Matches the values that the segments stand for. -/
def automaton (segments : List Segment) (payload : α) : Automaton α :=
  (segments.foldr (fun segment g => prepend g segment) (Graph.accept payload).prependEnd).seal

end Segment

end ByteMatch
