import ByteMatch.Proofs.ExclusionLanguage
import ByteMatch.Proofs.Expansions
import ByteMatch.Proofs.LiteralLanguage

/-!
# Bytes in patterns that no value has

Values are normally UTF-8, in which neither the terminator nor any byte above it occurs. Patterns may
have such bytes all the same. A pattern that asks for one of them literally finds nothing in a value
that has none: what its automaton reads before the last byte has the byte in it
(`Pattern.mem_dropLast_of_yields`), and all that is read before the last byte is the value's.

For all values but some this is not quite so. A value that is listed and has such a byte should not
count, since it is none of those that are matched; but if it goes on with a terminator where the value
ends, then the end of the value is taken for that byte, and the value is not found
(`inert_but_for_listed_terminators`, `listed_terminator_counts`). Without a terminator in the values
listed, all others are found, whichever bytes are in them (`Exclusion.all_but_listed_are_found`).
-/

namespace ByteMatch

variable {α : Type} {value read : Bytes} {b : UInt8} {payload p : α}

/-- All but the last byte read for a value are bytes of the value. -/
private theorem dropLast_prefix_of_prefix_symbols (h : read <+: symbols value) :
    read.dropLast <+: value := by
  rcases List.prefix_concat_iff.1 h with rfl | h
  · -- all of the symbols were read, and the last of them is the terminator
    simp only [List.dropLast_concat, List.prefix_rfl]
  · exact (List.dropLast_prefix read).trans h

/-! ### Bytes asked for literally -/

/-- The pattern asks for `b` as a byte that stands for itself. -/
def Pattern.AsksFor (b : UInt8) : Pattern → Prop
  | .exactly bytes => b ∈ bytes
  | .beginning bytes => b ∈ bytes
  | .shell pattern => .byte b ∈ Glob.ofShell pattern
  | .wildcard pattern => ∃ glob, Glob.ofWildcard pattern = .ok glob ∧ .byte b ∈ glob
  | .caseless _ => False
  | .noneOf _ => False

/-- What a glob matches has the bytes of the glob. -/
theorem Glob.mem_of_matches {wild : UInt8 → Prop} {glob : Glob} (h : Matches wild glob value)
    (hb : .byte b ∈ glob) : b ∈ value := by
  induction glob generalizing value with
  | nil => exact absurd hb List.not_mem_nil
  | cons token glob ih =>
    obtain ⟨part, rest, rfl, hcovers, hrest⟩ := h
    rcases List.mem_cons.1 hb with rfl | hb
    · -- a token that is a byte covers this byte
      have hpart : part = [b] := hcovers
      rw [hpart]
      exact List.mem_cons_self
    · exact List.mem_append_right part (ih hrest hb)

theorem Glob.mem_dropLast_of_yields {glob : Glob} (hb : .byte b ∈ glob)
    (hyields : (glob.automaton payload).Yields read p) : b ∈ read.dropLast := by
  obtain ⟨-, part, rfl, -, hmatches⟩ := yields_automaton_iff.1 hyields
  rw [List.dropLast_concat]
  exact mem_of_matches hmatches hb

/-- **A byte that is asked for is read before the last byte.** -/
theorem Pattern.mem_dropLast_of_yields {pattern : Pattern} {fa : Automaton α}
    (hb : pattern.AsksFor b) (hfa : pattern.automaton payload = .ok fa)
    (hyields : fa.Yields read p) : b ∈ read.dropLast := by
  cases pattern with
  | exactly bytes =>
    obtain rfl := Except.ok.inj hfa
    obtain ⟨-, -, rfl⟩ := Literal.yields_whole_iff.1 hyields
    rw [symbols, List.dropLast_concat]
    exact hb
  | beginning bytes =>
    obtain rfl := Except.ok.inj hfa
    obtain ⟨-, -, c, -, rfl⟩ := Literal.yields_beginning_iff.1 hyields
    rw [List.dropLast_concat]
    exact hb
  | shell pattern =>
    obtain rfl := Except.ok.inj hfa
    exact Glob.mem_dropLast_of_yields hb hyields
  | wildcard pattern =>
    obtain ⟨glob, hglob, hb⟩ := hb
    obtain ⟨glob', hglob', rfl⟩ := map_eq_ok_iff.1 hfa
    -- the pattern is read in one way
    obtain rfl : glob' = glob := Except.ok.inj (hglob'.symm.trans hglob)
    exact Glob.mem_dropLast_of_yields hb hyields
  | caseless text => exact absurd hb not_false
  | noneOf excluded => exact absurd hb not_false

/-! ### Values that are listed -/

namespace Exclusion

variable {excluded : List Bytes}

/-- Those of the values listed that have only bytes below the terminator. -/
def possible (excluded : List Bytes) : List Bytes := excluded.filter fun e => e.all (· < terminator)

theorem mem_possible {e : Bytes} :
    e ∈ possible excluded ↔ e ∈ excluded ∧ ∀ b ∈ e, b < terminator := by
  simp [possible]

/-- **Below the terminator** a value is found unless it is listed or a value that is listed goes on
with a terminator where it ends. -/
theorem exists_yields_automaton_iff (hvalue : ∀ b ∈ value, b < terminator) :
    (∃ read, read <+: symbols value ∧ (automaton excluded payload).Yields read p) ↔
      p = payload ∧ value ∉ excluded ∧ ∀ e ∈ excluded, ¬ symbols value <+: e := by
  -- so the symbols can be read along with a value listed, up to the terminator
  have hend : terminator ∉ (symbols value).dropLast := by
    rw [symbols, List.dropLast_concat]
    exact Glob.not_mem_of_lt_terminator hvalue
  have hbytes : ∀ b ∈ symbols value, InAlphabet b := by
    intro b hb
    rcases List.mem_append.1 hb with hb | hb
    · exact Glob.inAlphabet_of_lt_terminator (hvalue b hb)
    · rw [List.mem_singleton.1 hb]
      decide
  have hne : symbols value ≠ [] := List.append_ne_nil_of_right_ne_nil value (List.cons_ne_nil _ _)
  rw [exists_yields_iff hbytes hend, and_iff_right hne]
  refine and_congr_right fun _ => ⟨fun h => ⟨fun hmem => (h value hmem).2 rfl, fun e he => (h e he).1⟩,
    fun h e he => ⟨h.2 e he, fun heq => h.1 ?_⟩⟩
  rw [← List.append_cancel_right heq]
  exact he

/-- No value without a terminator goes on with one. -/
private theorem not_symbols_prefix_of_not_mem {e : Bytes} (he : terminator ∉ e) :
    ¬ symbols value <+: e := by
  intro hbegins
  exact he (hbegins.subset (List.mem_append_right _ List.mem_cons_self))

private theorem terminator_not_mem_of_mem_possible {e : Bytes} (he : e ∈ possible excluded) :
    terminator ∉ e := Glob.not_mem_of_lt_terminator (mem_possible.1 he).2

/-- **Below the terminator**, with no terminator in the values listed, being listed is all that
counts. -/
theorem exists_yields_automaton_iff_not_mem (hexcluded : ∀ e ∈ excluded, terminator ∉ e)
    (hvalue : ∀ b ∈ value, b < terminator) :
    (∃ read, read <+: symbols value ∧ (automaton excluded payload).Yields read p) ↔
      p = payload ∧ value ∉ excluded := by
  have hnone : ∀ e ∈ excluded, ¬ symbols value <+: e :=
    fun e he => not_symbols_prefix_of_not_mem (hexcluded e he)
  rw [exists_yields_automaton_iff hvalue, and_iff_left hnone]

end Exclusion

/-! ### Walks through values below the terminator -/

variable [DecidableEq α]

/-- A pattern that asks for a byte that the value cannot have finds nothing. -/
theorem Pattern.traverse_eq_of_asksFor {pattern : Pattern} {fa : Automaton α}
    (hvalue : ∀ b ∈ value, b < terminator) (hb : pattern.AsksFor b) (hle : terminator ≤ b)
    (hfa : pattern.automaton payload = .ok fa) (threshold : Nat) (incoming : List α) :
    fa.traverse threshold value incoming = .ok incoming.eraseDups := by
  have hnone : ∀ x, (∃ read, read <+: symbols value ∧ fa.Yields read x) ↔
      x = payload ∧ False := by
    intro x
    refine iff_of_false ?_ fun h => h.2
    rintro ⟨read, hread, hyields⟩
    -- the byte would be one of the value's
    have hmem : b ∈ value := (dropLast_prefix_of_prefix_symbols hread).subset
      (mem_dropLast_of_yields hb hfa hyields)
    exact absurd (hvalue b hmem) (UInt8.not_lt.2 hle)
  exact (Automaton.traverse_eq_collect_of_yields_iff (stepsInside hfa) hnone threshold
    incoming).2 not_false

/-- What difference it makes to leave out the values listed that are not below the terminator. -/
theorem Exclusion.traverse_possible_iff (hvalue : ∀ b ∈ value, b < terminator)
    (excluded : List Bytes) (payload : α) (threshold : Nat) (incoming : List α) :
    ∃ found kept,
      (automaton excluded payload).traverse threshold value incoming = .ok found ∧
      (automaton (possible excluded) payload).traverse threshold value incoming = .ok kept ∧
      (found = kept ↔ payload ∈ incoming ∨ value ∈ excluded ∨
        ∀ e ∈ excluded, ¬ value ++ [terminator] <+: e) := by
  have hfound := Automaton.traverse_eq_collect_of_yields_iff
    (stepsInside_automaton excluded payload)
    (fun x => exists_yields_automaton_iff hvalue) threshold incoming
  -- with those left out, it counts only whether the value itself is listed
  have hkept := Automaton.traverse_eq_collect_of_yields_iff
    (stepsInside_automaton (possible excluded) payload)
    (fun x => exists_yields_automaton_iff_not_mem
      (fun e he => terminator_not_mem_of_mem_possible he) hvalue) threshold incoming
  rw [mem_possible, and_iff_left hvalue] at hkept
  -- it makes a difference only if the value is not listed, but one listed goes on with a terminator
  by_cases hmem : value ∈ excluded
  · have hrefused : ¬ (value ∉ excluded ∧ ∀ e ∈ excluded, ¬ symbols value <+: e) :=
      fun h => h.1 hmem
    exact ⟨_, _, hfound.2 hrefused, hkept.2 (not_not_intro hmem),
      iff_of_true rfl (.inr (.inl hmem))⟩
  · by_cases hnone : ∀ e ∈ excluded, ¬ symbols value <+: e
    · exact ⟨_, _, hfound.1 ⟨hmem, hnone⟩, hkept.1 hmem, iff_of_true rfl (.inr (.inr hnone))⟩
    · -- the end of the value is taken for the terminator that is listed
      refine ⟨_, _, hfound.2 fun h => hnone h.2, hkept.1 hmem, ?_⟩
      rw [eq_comm, collect_singleton_eq_iff, or_iff_right hmem]
      exact (or_iff_left hnone).symm

/-- **All values but those listed are found**, as far as values below the terminator go and none of
those listed has a terminator in it. Otherwise the list may be any: with the empty value in it, with
values that are beginnings of one another, with values that have bytes above the terminator, none of
which rules out the part before such a byte. -/
theorem Exclusion.all_but_listed_are_found {excluded : List Bytes}
    (hexcluded : ∀ e ∈ excluded, terminator ∉ e) (hvalue : ∀ b ∈ value, b < terminator)
    (payload : α) (threshold : Nat) :
    (value ∉ excluded →
      (automaton excluded payload).traverse threshold value [] = .ok [payload]) ∧
    (value ∈ excluded →
      (automaton excluded payload).traverse threshold value [] = .ok []) := by
  have inside := stepsInside_automaton excluded payload
  have hyields : ∀ x, (∃ read, read <+: symbols value ∧ (automaton excluded payload).Yields read x) ↔
      x = payload ∧ value ∉ excluded :=
    fun x => exists_yields_automaton_iff_not_mem hexcluded hvalue
  obtain ⟨hfound, hruled⟩ := Automaton.traverse_eq_of_yields_iff inside hyields threshold
  exact ⟨hfound, fun hmem => hruled (not_not_intro hmem)⟩

/-- All values but the empty one, `ab` (listed twice), `abc` and one that goes on behind `a` with a
byte above the terminator: `a` is found, `ab` is not. -/
theorem Exclusion.all_but_listed_are_found_nested :
    let excluded : List Bytes := [[97, 98, 99], [], [97, 98], [97, 250], [97, 98]]
    (∀ e ∈ excluded, terminator ∉ e) ∧ (∀ b ∈ ([97] : Bytes), b < terminator) ∧
      [97] ∉ excluded ∧ (automaton excluded 1).traverse 500 [97] [] = .ok [1] ∧
      (∀ b ∈ ([97, 98] : Bytes), b < terminator) ∧
      [97, 98] ∈ excluded ∧ (automaton excluded 1).traverse 500 [97, 98] [] = .ok [] := by
  intro excluded
  have hexcluded : ∀ e ∈ excluded, terminator ∉ e := by decide
  have hbeginning : ∀ b ∈ ([97] : Bytes), b < terminator := by simp [terminator]
  have hlisted : ∀ b ∈ ([97, 98] : Bytes), b < terminator := by simp [terminator]
  have hout : [97] ∉ excluded := by decide
  have hin : [97, 98] ∈ excluded := by decide
  exact ⟨hexcluded, hbeginning, hout, (all_but_listed_are_found hexcluded hbeginning 1 500).1 hout,
    hlisted, hin, (all_but_listed_are_found hexcluded hlisted 1 500).2 hin⟩

/-- **Bytes that no value has are inert, but for terminators in values that are listed.** In a value
with bytes below the terminator only, a pattern that asks for another byte literally finds nothing.
Matching all values but some, it makes no difference to leave out those listed that have other bytes,
exactly if the payload came in anyway, the value itself is listed, or none of those listed goes on
with a terminator where the value ends. -/
theorem inert_but_for_listed_terminators (hvalue : ∀ b ∈ value, b < terminator) (payload : α)
    (threshold : Nat) (incoming : List α) :
    (∀ (pattern : Pattern) (fa : Automaton α) (b : UInt8), pattern.AsksFor b → terminator ≤ b →
      pattern.automaton payload = .ok fa →
        fa.traverse threshold value incoming = .ok incoming.eraseDups) ∧
    ∀ excluded : List Bytes, ∃ found kept,
      (Exclusion.automaton excluded payload).traverse threshold value incoming = .ok found ∧
      (Exclusion.automaton (Exclusion.possible excluded) payload).traverse threshold value incoming
        = .ok kept ∧
      (found = kept ↔ payload ∈ incoming ∨ value ∈ excluded ∨
        ∀ e ∈ excluded, ¬ value ++ [terminator] <+: e) := by
  refine ⟨fun pattern fa b hb hle hfa => ?_, fun excluded => ?_⟩
  · exact Pattern.traverse_eq_of_asksFor hvalue hb hle hfa threshold incoming
  · exact Exclusion.traverse_possible_iff hvalue excluded payload threshold incoming

/-- A pattern that asks for `a` and the byte behind the terminator, in the value `a`; and all values
but this pattern and one that goes on with a terminator behind `b`. -/
theorem inert_but_for_listed_terminators_one :
    (∀ b ∈ ([97] : Bytes), b < terminator) ∧
      (∃ fa : Automaton Nat, (Pattern.exactly [97, 246]).automaton 1 = .ok fa ∧
        fa.traverse 500 [97] [7, 7] = .ok [7, 7].eraseDups) ∧
      ∃ found kept,
        (Exclusion.automaton [[97, 246], [98, 245]] 1).traverse 500 [97] [7, 7] = .ok found ∧
        (Exclusion.automaton (Exclusion.possible [[97, 246], [98, 245]]) 1).traverse 500 [97] [7, 7]
          = .ok kept ∧
        found = kept := by
  have hvalue : ∀ b ∈ ([97] : Bytes), b < terminator := by simp [terminator]
  obtain ⟨hasked, hlisted⟩ := inert_but_for_listed_terminators hvalue 1 500 [7, 7]
  obtain ⟨found, kept, hfound, hkept, hsame⟩ := hlisted [[97, 246], [98, 245]]
  have hleft : ∀ e ∈ ([[97, 246], [98, 245]] : List Bytes), ¬ [97] ++ [terminator] <+: e := by
    decide
  exact ⟨hvalue, ⟨_, rfl, hasked (.exactly [97, 246]) _ 246 (by simp [Pattern.AsksFor])
    (by decide) rfl⟩, found, kept, hfound, hkept, hsame.2 (.inr (.inr hleft))⟩

/-- **A terminator in a value that is listed counts.** With `a` and a terminator listed, the value `a`
is not found, although it is not listed. -/
theorem listed_terminator_counts :
    ¬ ∀ (excluded : List Bytes) (payload : Nat) (value : Bytes), (∀ b ∈ value, b < terminator) →
      (Exclusion.automaton excluded payload).traverse 500 value [] =
        (Exclusion.automaton (Exclusion.possible excluded) payload).traverse 500 value [] := by
  intro h
  have hvalue : ∀ b ∈ ([97] : Bytes), b < terminator := by simp [terminator]
  have hlost : (Exclusion.automaton [[97, terminator]] 1).traverse 500 [97] [] = .ok [] := by
    decide +kernel
  have hfound : (Exclusion.automaton (Exclusion.possible [[97, terminator]]) 1).traverse 500 [97] []
      = .ok [1] := by decide +kernel
  -- so the two lists would be the same
  have hsame := h [[97, terminator]] 1 [97] hvalue
  rw [hlost, hfound] at hsame
  exact absurd (Except.ok.inj hsame) (List.cons_ne_nil 1 []).symm

end ByteMatch
