/-!
# Values, and the bytes an automaton reads

A value is a string of bytes. Automata read the 246 byte values below `alphabetSize`; the ten byte
values above them never occur in UTF-8 and are never stepped on. The last byte of the alphabet,
`terminator`, does not occur in UTF-8 either and is free to mark the end of a value: a value `v` is
always read as `symbols v`, which is how an automaton tells a whole value from its beginnings.
-/

namespace ByteMatch

/-- A string of bytes: a value to be matched, or the data of a pattern. -/
abbrev Bytes := List UInt8

/-- The number of byte values an automaton reads. -/
def alphabetSize : Nat := 246

/-- The byte read after the last byte of a value. -/
def terminator : UInt8 := 245

/-- The bytes an automaton can read, in ascending order. -/
def alphabet : Bytes := (List.range alphabetSize).map UInt8.ofNat

/-- A byte that an automaton can read. -/
abbrev InAlphabet (b : UInt8) : Prop := b.toNat < alphabetSize

theorem toNat_ofNat_of_lt {i : Nat} (h : i < alphabetSize) : (UInt8.ofNat i).toNat = i := by
  rw [UInt8.toNat_ofNat']
  unfold alphabetSize at h
  omega

theorem mem_alphabet {b : UInt8} : b ∈ alphabet ↔ InAlphabet b := by
  refine ⟨fun h => ?_, fun h => ?_⟩
  · obtain ⟨i, hi, rfl⟩ := List.mem_map.1 h
    rw [InAlphabet, toNat_ofNat_of_lt (List.mem_range.1 hi)]
    exact List.mem_range.1 hi
  · exact List.mem_map.2 ⟨b.toNat, List.mem_range.2 h, UInt8.ofNat_toNat⟩

/-- What is read for a value: its bytes and then the terminator. -/
def symbols (value : Bytes) : Bytes := value ++ [terminator]

end ByteMatch
