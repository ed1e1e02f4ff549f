import ByteMatch.Proofs.BuiltInside
import ByteMatch.Proofs.CaselessLanguage
import ByteMatch.Proofs.Expansions

/-!
# Texts are found in every spelling

Where case does not count, every character of a text may be written in any of its forms
(`CaseMap.FormOf`), and the text in any spelling that consists of one form for each of its characters
(`Caseless.IsSpelling`). The case mapping may be any: forms of one character may be encoded in
different lengths, begin alike or coincide.

The automaton of a text branches over the bytes of the encodings and ends a branch where the first
string on it ends (`Caseless.Chosen`). That this cuts no encoding short is what makes UTF-8 matter:

* `eq_of_encoding_begins`: no encoding begins another one;
* `lt_terminator_of_mem_utf8EncodeChar`: no encoding has a byte that a walk would not read;
* `Caseless.chosen_encodings_iff`: so every encoding of a form is chosen.

With this the automaton finds the spellings and no others, as far as values below the terminator go
(`Caseless.spellings_are_found`).
-/

namespace ByteMatch

/-! ### Encodings -/

/-- **UTF-8 is prefix-free.** Decoding the longer encoding gives the character of the shorter one. -/
theorem eq_of_encoding_begins {c d : Char}
    (h : String.utf8EncodeChar c <+: String.utf8EncodeChar d) : c = d := by
  obtain ⟨rest, hrest⟩ := h
  -- a decoder reads one character and does not look at what is behind it
  have hd : ((String.utf8EncodeChar d).toByteArray ++ ByteArray.empty).utf8DecodeChar? 0 = some d :=
    ByteArray.utf8DecodeChar?_utf8EncodeChar_append
  rw [ByteArray.append_empty, ← hrest, List.toByteArray_append,
    ByteArray.utf8DecodeChar?_utf8EncodeChar_append] at hd
  exact Option.some.inj hd

/-- Every byte of an encoding is below the terminator: the highest first byte is that of the last
character there is. -/
theorem lt_terminator_of_mem_utf8EncodeChar {c : Char} {b : UInt8}
    (hb : b ∈ String.utf8EncodeChar c) : b < terminator := by
  have hc : c.val.toNat < 0x110000 := by
    have hvalid := c.valid
    simp only [UInt32.isValidChar, Nat.isValidChar] at hvalid
    omega
  unfold String.utf8EncodeChar at hb
  generalize c.val.toNat = v at hb hc
  rw [UInt8.lt_iff_toNat_lt, show terminator.toNat = 245 from rfl]
  -- one case for each length of an encoding
  simp only at hb
  split at hb
  · obtain rfl := List.mem_singleton.1 hb
    rw [UInt8.toNat_ofNat']
    omega
  · split at hb
    · simp only [List.mem_cons, List.not_mem_nil, or_false] at hb
      rcases hb with rfl | rfl <;> rw [UInt8.toNat_ofNat'] <;> omega
    · split at hb
      · simp only [List.mem_cons, List.not_mem_nil, or_false] at hb
        rcases hb with rfl | rfl | rfl <;> rw [UInt8.toNat_ofNat'] <;> omega
      · simp only [List.mem_cons, List.not_mem_nil, or_false] at hb
        rcases hb with rfl | rfl | rfl | rfl <;> rw [UInt8.toNat_ofNat'] <;> omega

/-! ### Forms -/

/-- **What a character may be written as** where case does not count: itself, and its lowercase and
its uppercase form, each if that is a single character. -/
inductive CaseMap.FormOf (cases : CaseMap) (c : Char) : Char → Prop
  | itself : FormOf cases c c
  | lower {d : Char} : cases.lower c = [d] → FormOf cases c d
  | upper {d : Char} : cases.upper c = [d] → FormOf cases c d

theorem CaseMap.mem_only?_iff {chars : List Char} {d : Char} :
    d ∈ (only? chars).toList ↔ chars = [d] := by
  rw [Option.mem_toList]
  match chars with
  | [] => simp [only?]
  | [c] => simp [only?]
  | c :: c' :: rest => simp [only?]

/-- The forms listed for a character are those that it has. -/
theorem CaseMap.mem_forms_iff {cases : CaseMap} {c d : Char} :
    d ∈ cases.forms c ↔ cases.FormOf c d := by
  rw [forms, List.mem_eraseDups, List.mem_cons, List.mem_append, mem_only?_iff, mem_only?_iff]
  constructor
  · intro h
    rcases h with rfl | h | h
    · exact .itself
    · exact .lower h
    · exact .upper h
  · intro h
    cases h with
    | itself => exact .inl rfl
    | lower h => exact .inr (.inl h)
    | upper h => exact .inr (.inr h)

namespace Caseless

variable {α : Type} {cases : CaseMap} {text : List Char} {value spelled chosen : Bytes} {c : Char}

/-- **Every encoding of a form is chosen.** None of the others begins it, and all of its bytes are
read. -/
theorem chosen_encodings_iff :
    Chosen (encodings cases c) chosen ↔
      ∃ d, cases.FormOf c d ∧ chosen = String.utf8EncodeChar d := by
  constructor
  · intro h
    obtain ⟨d, hd, rfl⟩ := List.mem_map.1 h.mem
    exact ⟨d, CaseMap.mem_forms_iff.1 hd, rfl⟩
  · rintro ⟨d, hd, rfl⟩
    refine ⟨List.mem_map_of_mem (CaseMap.mem_forms_iff.2 hd), ?_, ?_⟩
    · intro b hb
      exact Glob.inAlphabet_of_lt_terminator (lt_terminator_of_mem_utf8EncodeChar hb)
    · intro other hother hbegins
      -- the other one encodes a form as well, and begins this one only if it is the same
      obtain ⟨e, -, rfl⟩ := List.mem_map.1 hother
      rw [eq_of_encoding_begins hbegins]

/-! ### Spellings -/

/-- **The spellings of a text.** The value consists of the encodings of characters, one for each
character of the text and a form of it. -/
def IsSpelling (cases : CaseMap) (text : List Char) (value : Bytes) : Prop :=
  ∃ written : List Char,
    List.Forall₂ cases.FormOf text written ∧ value = written.flatMap String.utf8EncodeChar

theorem isSpelling_cons_iff :
    IsSpelling cases (c :: text) value ↔
      ∃ d rest, value = String.utf8EncodeChar d ++ rest ∧ cases.FormOf c d ∧
        IsSpelling cases text rest := by
  constructor
  · rintro ⟨written, hwritten, rfl⟩
    obtain ⟨d, others, hd, hothers, rfl⟩ := List.forall₂_cons_left_iff.1 hwritten
    exact ⟨d, others.flatMap String.utf8EncodeChar, List.flatMap_cons, hd, others, hothers, rfl⟩
  · rintro ⟨d, rest, rfl, hd, others, hothers, rfl⟩
    exact ⟨d :: others, .cons hd hothers, List.flatMap_cons.symm⟩

/-- What a text is spelled by, branch by branch, are its spellings. -/
theorem spells_iff_isSpelling : Spells cases text spelled ↔ IsSpelling cases text spelled := by
  induction text generalizing spelled with
  | nil => simp [Spells, IsSpelling]
  | cons c text ih =>
    rw [isSpelling_cons_iff, Spells]
    simp only [chosen_encodings_iff, ih]
    constructor
    · rintro ⟨_, rest, rfl, ⟨d, hd, rfl⟩, hrest⟩
      exact ⟨d, rest, rfl, hd, hrest⟩
    · rintro ⟨d, rest, rfl, hd, hrest⟩
      exact ⟨_, rest, rfl, ⟨d, hd, rfl⟩, hrest⟩

/-- Where the value has no terminator, only the one behind it ends what is read. -/
theorem symbols_prefix_symbols_iff (hvalue : terminator ∉ value) :
    symbols spelled <+: symbols value ↔ spelled = value := by
  constructor
  · intro h
    rcases List.prefix_concat_iff.1 h with heq | hbegins
    · exact List.append_cancel_right heq
    · -- read within the value, the terminator would be one of its bytes
      exact absurd (hbegins.subset (List.mem_append_right _ List.mem_cons_self)) hvalue
  · intro h
    exact h ▸ List.prefix_rfl

variable {payload p : α}

/-- What the automaton of a text yields for a value is its payload, if the value is a spelling. -/
theorem exists_yields_automaton_iff (hvalue : terminator ∉ value) :
    (∃ read, read <+: symbols value ∧ (automaton cases text payload).Yields read p) ↔
      p = payload ∧ IsSpelling cases text value := by
  simp only [yields_automaton_iff, spells_iff_isSpelling]
  constructor
  · rintro ⟨_, hread, rfl, spelled, rfl, hspelled⟩
    -- what is read ends with the value, so it is all of it
    obtain rfl := (symbols_prefix_symbols_iff hvalue).1 hread
    exact ⟨rfl, hspelled⟩
  · rintro ⟨rfl, hspelled⟩
    exact ⟨symbols value, List.prefix_rfl, rfl, value, rfl, hspelled⟩

variable [DecidableEq α]

/-- **A text is found in every spelling**, and in no other value, as far as values below the
terminator go; whichever forms the case mapping gives to the characters. -/
theorem spellings_are_found (cases : CaseMap) (text : List Char) (payload : α) (threshold : Nat)
    (hvalue : ∀ b ∈ value, b < terminator) :
    (IsSpelling cases text value →
      (automaton cases text payload).traverse threshold value [] = .ok [payload]) ∧
    (¬ IsSpelling cases text value →
      (automaton cases text payload).traverse threshold value [] = .ok []) := by
  have inside := stepsInside_automaton cases text payload
  have hterminator := Glob.not_mem_of_lt_terminator hvalue
  apply Automaton.traverse_eq_of_yields_iff inside
  intro x
  exact exists_yields_automaton_iff hterminator

/-- The Kelvin sign and a sharp s. The one is written in three bytes and has a lowercase form of one
byte; the uppercase form of the other is two characters long and does not count. So `kß` is found and
`kSS` is not. -/
theorem spellings_are_found_kelvin :
    let text : List Char := ['\u212a', '\u00df']
    (∀ b ∈ ([107, 195, 159] : Bytes), b < terminator) ∧
      IsSpelling CaseMap.unicode text [107, 195, 159] ∧
      (automaton CaseMap.unicode text 1).traverse 500 [107, 195, 159] [] = .ok [1] ∧
      (∀ b ∈ ([107, 83, 83] : Bytes), b < terminator) ∧
      ¬ IsSpelling CaseMap.unicode text [107, 83, 83] ∧
      (automaton CaseMap.unicode text 1).traverse 500 [107, 83, 83] [] = .ok [] := by
  intro text
  have hvalue : ∀ b ∈ ([107, 195, 159] : Bytes), b < terminator := by simp [terminator]
  have hother : ∀ b ∈ ([107, 83, 83] : Bytes), b < terminator := by simp [terminator]
  have hlower : CaseMap.unicode.lower '\u212a' = ['k'] := by decide +kernel
  have hspelling : IsSpelling CaseMap.unicode text [107, 195, 159] :=
    ⟨['k', '\u00df'], .cons (.lower hlower) (.cons .itself .nil), by decide +kernel⟩
  have hfails : ¬ IsSpelling CaseMap.unicode text [107, 83, 83] := by
    intro h
    obtain ⟨d, rest, heq, -, hrest⟩ := isSpelling_cons_iff.1 h
    obtain ⟨e, last, rfl, he, -⟩ := isSpelling_cons_iff.1 hrest
    -- the sharp s has no other form, and its first byte is missing from the value
    have hforms : CaseMap.unicode.forms '\u00df' = ['\u00df'] := by decide +kernel
    have hform := CaseMap.mem_forms_iff.2 he
    rw [hforms, List.mem_singleton] at hform
    have hbyte : (195 : UInt8) ∈ String.utf8EncodeChar e := by
      rw [hform]
      decide
    have hmem : (195 : UInt8) ∈ ([107, 83, 83] : Bytes) := by
      rw [heq]
      exact List.mem_append_right _ (List.mem_append_left _ hbyte)
    exact absurd hmem (by decide)
  exact ⟨hvalue, hspelling, (spellings_are_found _ text 1 500 hvalue).1 hspelling, hother, hfails,
    (spellings_are_found _ text 1 500 hother).2 hfails⟩

end Caseless

end ByteMatch
