import ByteMatch.Automaton

/-!
# Globs

A glob is a list of tokens, each a byte that stands for itself or a star, which stands for any
bytes. It is written in one of two ways: in shell style every `*` is a star and every other byte
stands for itself (`Glob.ofShell`); in wildcard style a backslash takes a `*` or a backslash
literally and may stand before nothing else (`Glob.ofWildcard`).
-/

namespace ByteMatch

/-- The byte that writes a star. -/
def starByte : UInt8 := 42

/-- The byte that takes the next one literally. -/
def escapeByte : UInt8 := 92

/-- A part of a glob. -/
inductive Token where
  /-- A byte that stands for itself. -/
  | byte (b : UInt8)
  /-- Any number of any bytes. -/
  | star
deriving DecidableEq, Repr

/-- What a wildcard pattern may not contain. -/
inductive PatternError where
  /-- A backslash before a byte that needs none. -/
  | invalidEscape (byte : UInt8) (offset : Nat)
  /-- A backslash before the end of the pattern. -/
  | trailingBackslash
deriving DecidableEq, Repr

namespace PatternError

/-- What is wrong, with the offending byte shown as the character of its number. -/
def reason : PatternError → String
  | invalidEscape byte offset =>
    "invalid escape '\\" ++ String.singleton (Char.ofNat byte.toNat) ++ "' at offset " ++
      toString offset
  | trailingBackslash => "pattern ends with an unescaped backslash"

/-- The message shown for a pattern that is refused. -/
def message (e : PatternError) : String := "invalid pattern: " ++ e.reason

end PatternError

/-- A pattern of literal bytes and stars. -/
abbrev Glob := List Token

namespace Glob

variable {α : Type}

/-- Reads a shell-style pattern. -/
def ofShell (pattern : Bytes) : Glob :=
  pattern.map fun b => if b = starByte then .star else .byte b

/-- Reads the rest of a wildcard pattern, of which `offset` bytes have been read. -/
def readWildcard (offset : Nat) : Bytes → Except PatternError Glob
  | [] => .ok []
  | b :: rest =>
    if b = escapeByte then
      match rest with
      | [] => .error .trailingBackslash
      | c :: rest =>
        if c = starByte ∨ c = escapeByte then (.byte c :: ·) <$> readWildcard (offset + 2) rest
        else .error (.invalidEscape c offset)
    else if b = starByte then (.star :: ·) <$> readWildcard (offset + 1) rest
    else (.byte b :: ·) <$> readWildcard (offset + 1) rest

/-- Reads a wildcard pattern. -/
def ofWildcard (pattern : Bytes) : Except PatternError Glob := readWildcard 0 pattern

/-- Asks for what the token stands for in front. -/
def prependToken (g : Graph α) : Token → Graph α
  | .byte b => g.prependByte b
  | .star => g.prependStar

/-- Matches the values that the glob stands for. -/
def automaton (glob : Glob) (payload : α) : Automaton α :=
  (glob.foldr (fun token g => prependToken g token) (Graph.accept payload).prependEnd).seal

end Glob

end ByteMatch
