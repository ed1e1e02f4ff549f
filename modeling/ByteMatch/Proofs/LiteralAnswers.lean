import ByteMatch.Proofs.LiteralLanguage
import ByteMatch.Proofs.Expansions

/-!
# Whole values and beginnings, asked of any value

The bytes given to `Literal.whole` and `Literal.beginning` are any bytes, and so are those of the value
that is walked. Three things then show which do not show among texts:

* a byte given that no automaton reads is waited for in vain, so nothing is found at all;
* the end of the value is read as a terminator. A terminator in the value is taken for the end, so the
  automaton for a whole value finds it in a value that goes on (`Literal.Completes`), and a terminator
  among the bytes given is looked for like any other byte;
* the automaton for a beginning reads one byte more than the beginning. The end of the value will do
  for it, a byte that no automaton reads will not (`Literal.Begins`).

Among values below the terminator none of this is left but the first
(`Literal.completes_iff_of_lt_terminator`, `Literal.begins_iff_of_lt_terminator`).
-/

namespace ByteMatch.Literal

variable {α : Type} {bytes value : Bytes} {payload p : α}

/-- **What is taken for the value `bytes`**: the value itself, or one in which a terminator follows it.
All bytes given have to be such that an automaton reads them. -/
def Completes (bytes value : Bytes) : Prop :=
  (∀ b ∈ bytes, InAlphabet b) ∧ (value = bytes ∨ bytes ++ [terminator] <+: value)

/-- **What is taken for a value that begins with `bytes`**: it does begin so, and either ends there or
goes on with a byte that an automaton reads. -/
def Begins (bytes value : Bytes) : Prop :=
  (∀ b ∈ bytes, InAlphabet b) ∧ bytes <+: value ∧
    (value = bytes ∨ ∃ b ∈ value[bytes.length]?, InAlphabet b)

instance : Decidable (Completes bytes value) := inferInstanceAs (Decidable (_ ∧ _))

instance : Decidable (Begins bytes value) := inferInstanceAs (Decidable (_ ∧ _))

/-! ### Where a walk may stop -/

/-- All that is read for a whole value is read of another one at its end, or before a terminator in
it. -/
theorem symbols_prefix_symbols_iff :
    symbols bytes <+: symbols value ↔ value = bytes ∨ bytes ++ [terminator] <+: value := by
  rw [symbols, symbols, List.prefix_concat_iff, List.append_left_inj, eq_comm]

/-- One byte more than a beginning is read of a value if one that is read follows there, be it only
the end of the value. -/
private theorem concat_prefix_symbols_iff :
    (∃ b, InAlphabet b ∧ bytes ++ [b] <+: symbols value) ↔
      bytes <+: value ∧ (value = bytes ∨ ∃ b ∈ value[bytes.length]?, InAlphabet b) := by
  constructor
  · rintro ⟨b, hb, hprefix⟩
    rcases List.prefix_concat_iff.1 hprefix with heq | ⟨rest, rfl⟩
    · -- the byte is the terminator behind the value
      have hbytes : bytes = value := List.append_inj_left' heq rfl
      exact ⟨hbytes ▸ List.prefix_rfl, .inl hbytes.symm⟩
    · rw [List.append_assoc]
      exact ⟨List.prefix_append _ _, .inr ⟨b, by simp, hb⟩⟩
  · rintro ⟨⟨rest, rfl⟩, hnext⟩
    cases rest with
    | nil =>
      rw [List.append_nil]
      exact ⟨terminator, by decide, List.prefix_rfl⟩
    | cons c rest =>
      -- there is a byte, so the value does not end with the beginning
      have hne : bytes ++ c :: rest ≠ bytes := by simp
      obtain ⟨b, hb, hread⟩ := hnext.resolve_left hne
      obtain rfl : c = b := by simpa using hb
      refine ⟨c, hread, rest ++ [terminator], ?_⟩
      rw [symbols, List.append_assoc, List.append_assoc]
      rfl

/-- **The automaton for a whole value** yields its payload where a value is taken for that value. -/
theorem exists_yields_whole_iff :
    (∃ read, read <+: symbols value ∧ (whole bytes payload).Yields read p) ↔
      p = payload ∧ Completes bytes value := by
  simp only [yields_whole_iff]
  calc (∃ read, read <+: symbols value ∧
        p = payload ∧ (∀ b ∈ bytes, InAlphabet b) ∧ read = symbols bytes)
      ↔ p = payload ∧ (∀ b ∈ bytes, InAlphabet b) ∧ symbols bytes <+: symbols value := by
        constructor
        · rintro ⟨_, hread, hp, hbytes, rfl⟩
          exact ⟨hp, hbytes, hread⟩
        · rintro ⟨hp, hbytes, hread⟩
          exact ⟨_, hread, hp, hbytes, rfl⟩
    _ ↔ p = payload ∧ Completes bytes value := by rw [symbols_prefix_symbols_iff, Completes]

/-- **The automaton for a beginning** yields its payload where a value is taken for one that begins
so. -/
theorem exists_yields_beginning_symbols_iff :
    (∃ read, read <+: symbols value ∧ (beginning bytes payload).Yields read p) ↔
      p = payload ∧ Begins bytes value := by
  simp only [yields_beginning_iff]
  calc (∃ read, read <+: symbols value ∧
        p = payload ∧ (∀ b ∈ bytes, InAlphabet b) ∧ ∃ b, InAlphabet b ∧ read = bytes ++ [b])
      ↔ p = payload ∧ (∀ b ∈ bytes, InAlphabet b) ∧
          ∃ b, InAlphabet b ∧ bytes ++ [b] <+: symbols value := by
        constructor
        · rintro ⟨_, hread, hp, hbytes, b, hb, rfl⟩
          exact ⟨hp, hbytes, b, hb, hread⟩
        · rintro ⟨hp, hbytes, b, hb, hread⟩
          exact ⟨_, hread, hp, hbytes, b, hb, rfl⟩
    _ ↔ p = payload ∧ Begins bytes value := by rw [concat_prefix_symbols_iff, Begins]

/-! ### Values below the terminator -/

/-- Below the terminator, only the value itself is taken for it. -/
theorem completes_iff_of_lt_terminator (hvalue : ∀ b ∈ value, b < terminator) :
    Completes bytes value ↔ value = bytes := by
  have hend : ¬ bytes ++ [terminator] <+: value := fun h =>
    Glob.not_mem_of_lt_terminator hvalue (h.subset (List.mem_append_right _ List.mem_cons_self))
  rw [Completes, or_iff_left hend, and_iff_right_iff_imp]
  rintro rfl b hb
  exact Glob.inAlphabet_of_lt_terminator (hvalue b hb)

/-- Below the terminator, a value is taken for one that begins with certain bytes if it does. -/
theorem begins_iff_of_lt_terminator (hvalue : ∀ b ∈ value, b < terminator) :
    Begins bytes value ↔ bytes <+: value := by
  have hread : ∀ b ∈ value, InAlphabet b :=
    fun b hb => Glob.inAlphabet_of_lt_terminator (hvalue b hb)
  refine ⟨fun h => h.2.1, fun h => ⟨fun b hb => hread b (h.subset hb), h, ?_⟩⟩
  -- what follows the beginning, if anything does, is a byte of the value
  rcases Nat.eq_or_lt_of_le h.length_le with heq | hlt
  · exact .inl (h.eq_of_length heq).symm
  · exact .inr ⟨value[bytes.length], List.getElem?_eq_getElem hlt, hread _ (List.getElem_mem hlt)⟩

/-! ### What is found -/

variable [DecidableEq α]

/-- **Whole values and beginnings are found just where they should be**, whatever bytes are given and
whatever bytes the value has: the payload is found in the values that are taken for the one given, or
for one that begins so, and nothing is found in any other. -/
theorem literals_are_found (bytes value : Bytes) (payload : α) (threshold : Nat) :
    (whole bytes payload).traverse threshold value [] =
      .ok (if Completes bytes value then [payload] else []) ∧
    (beginning bytes payload).traverse threshold value [] =
      .ok (if Begins bytes value then [payload] else []) := by
  have hyields : ∀ x, (∃ read, read <+: symbols value ∧ (whole bytes payload).Yields read x) ↔
      x = payload ∧ Completes bytes value := fun x => exists_yields_whole_iff
  have hyields' : ∀ x,
      (∃ read, read <+: symbols value ∧ (beginning bytes payload).Yields read x) ↔
        x = payload ∧ Begins bytes value := fun x => exists_yields_beginning_symbols_iff
  have hwhole :=
    Automaton.traverse_eq_of_yields_iff (stepsInside_whole bytes payload) hyields threshold
  have hbeginning :=
    Automaton.traverse_eq_of_yields_iff (stepsInside_beginning bytes payload) hyields' threshold
  refine ⟨?_, ?_⟩
  · split
    · next h => exact hwhole.1 h
    · next h => exact hwhole.2 h
  · split
    · next h => exact hbeginning.1 h
    · next h => exact hbeginning.2 h

/-- The value `a` goes on behind a terminator, and is found all the same. -/
example : Completes [97] [97, 245, 98] := by decide +kernel

end ByteMatch.Literal
