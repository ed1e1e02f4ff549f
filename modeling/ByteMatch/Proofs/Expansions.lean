import ByteMatch.Proofs.GlobLanguage
import Mathlib.Data.List.Forall2

/-!
# What a shell-style pattern stands for

A shell-style pattern stands for the values into which it can be turned by replacing each of its
stars by some bytes, `Glob.ExpandsTo`. That is said of the bytes of the pattern, without the tokens
that they are read as, and `Glob.expandsTo_iff_matches` ties it to what the tokens match.

The automaton of a pattern finds the values which the pattern expands to, and no others, among those
whose bytes all lie below the terminator (`Glob.shell_automaton_finds_expansions`). Such a value
ends at the one terminator that is read for it, and no star could have gone over another one. A
pattern byte from the terminator on is in no such value, and the pattern expands to none of them.
-/

namespace ByteMatch.Glob

variable {α : Type} {pattern value : Bytes} {b : UInt8}

/-- **What a shell-style pattern stands for.** The value consists of one part for each byte of the
pattern: any bytes for a star, and for every other byte just that byte. -/
def ExpandsTo (pattern value : Bytes) : Prop :=
  ∃ parts : List Bytes,
    List.Forall₂ (fun b part => b = starByte ∨ part = [b]) pattern parts ∧ value = parts.flatten

theorem expandsTo_cons_iff :
    ExpandsTo (b :: pattern) value ↔
      ∃ part rest, value = part ++ rest ∧ (b = starByte ∨ part = [b]) ∧ ExpandsTo pattern rest := by
  unfold ExpandsTo
  refine ⟨?_, ?_⟩
  · rintro ⟨parts, hparts, rfl⟩
    obtain ⟨part, others, hpart, hothers, rfl⟩ := List.forall₂_cons_left_iff.1 hparts
    exact ⟨part, others.flatten, List.flatten_cons, hpart, others, hothers, rfl⟩
  · rintro ⟨part, rest, rfl, hpart, others, hothers, rfl⟩
    exact ⟨part :: others, .cons hpart hothers, List.flatten_cons.symm⟩

/-- A glob matches what consists of one part for each of its tokens, covered by it. -/
theorem matches_iff_exists_parts {wild : UInt8 → Prop} {glob : Glob} :
    glob.Matches wild value ↔
      ∃ parts : List Bytes, List.Forall₂ (Token.Covers wild) glob parts ∧ value = parts.flatten := by
  induction glob generalizing value with
  | nil => simp [matches_nil_iff, List.forall₂_nil_left_iff]
  | cons token glob ih =>
    refine ⟨?_, ?_⟩
    · -- the part of the first token comes first
      rintro ⟨part, rest, rfl, hcovers, hrest⟩
      obtain ⟨parts, hparts, rfl⟩ := ih.1 hrest
      exact ⟨part :: parts, .cons hcovers hparts, List.flatten_cons.symm⟩
    · rintro ⟨parts, hparts, rfl⟩
      obtain ⟨part, others, hcovers, hothers, rfl⟩ := List.forall₂_cons_left_iff.1 hparts
      exact ⟨part, others.flatten, List.flatten_cons, hcovers, ih.2 ⟨others, hothers, rfl⟩⟩

/-- A pattern expands to what its tokens match, stars standing for any bytes. -/
theorem expandsTo_iff_matches :
    ExpandsTo pattern value ↔ (ofShell pattern).Matches (fun _ => True) value := by
  have hcovers : ∀ (b : UInt8) (part : Bytes), (b = starByte ∨ part = [b]) ↔
      Token.Covers (fun _ => True) (if b = starByte then .star else .byte b) part := by
    intro b part
    by_cases hb : b = starByte <;> simp [hb, Token.Covers]
  -- byte for byte, the pattern asks for what its tokens ask for
  rw [matches_iff_exists_parts, ofShell]
  simp only [List.forall₂_map_left_iff, ← hcovers]
  rfl

/-! ### Values below the terminator -/

theorem not_mem_of_lt_terminator (hvalue : ∀ b ∈ value, b < terminator) : terminator ∉ value := by
  intro hmem
  exact absurd (hvalue terminator hmem) (UInt8.lt_irrefl _)

theorem inAlphabet_of_lt_terminator (hb : b < terminator) : InAlphabet b := by
  have hlt : b.toNat < terminator.toNat := UInt8.lt_iff_toNat_lt.1 hb
  have hle : terminator.toNat ≤ alphabetSize := by decide
  exact Nat.lt_of_lt_of_le hlt hle

/-- Below the terminator the automaton of a glob accepts just what the glob matches, its stars
standing for any bytes. -/
theorem accepts_iff_of_lt_terminator {glob : Glob} (hvalue : ∀ b ∈ value, b < terminator) :
    glob.Accepts value ↔ glob.Matches (fun _ => True) value := by
  have hmem := not_mem_of_lt_terminator hvalue
  have hbytes : ∀ b ∈ value, InAlphabet b := fun b hb => inAlphabet_of_lt_terminator (hvalue b hb)
  rw [accepts_iff, or_iff_left (not_endsEarly hmem), and_iff_right hbytes,
    matches_iff_of_not_mem hmem]

variable [DecidableEq α]

/-- **The automaton of a shell-style pattern finds what the pattern expands to.** It answers such a
value with its payload and any other with nothing, as far as values below the terminator go. -/
theorem shell_automaton_finds_expansions (pattern : Bytes) (payload : α) (threshold : Nat)
    (hvalue : ∀ b ∈ value, b < terminator) :
    (ExpandsTo pattern value →
      ((ofShell pattern).automaton payload).traverse threshold value [] = .ok [payload]) ∧
    (¬ ExpandsTo pattern value →
      ((ofShell pattern).automaton payload).traverse threshold value [] = .ok []) := by
  have inside := stepsInside_automaton (ofShell pattern) payload
  refine Automaton.traverse_eq_of_yields_iff inside (fun x => ?_) threshold
  rw [exists_yields_automaton_iff, accepts_iff_of_lt_terminator hvalue, expandsTo_iff_matches]

/-- The pattern `a**c`, which expands to `abbc` but not to `bc`. -/
theorem shell_automaton_finds_expansions_infix :
    (∀ b ∈ ([97, 98, 98, 99] : Bytes), b < terminator) ∧
      ExpandsTo [97, 42, 42, 99] [97, 98, 98, 99] ∧
      ((ofShell [97, 42, 42, 99]).automaton 1).traverse 500 [97, 98, 98, 99] [] = .ok [1] ∧
      (∀ b ∈ ([98, 99] : Bytes), b < terminator) ∧
      ¬ ExpandsTo [97, 42, 42, 99] [98, 99] ∧
      ((ofShell [97, 42, 42, 99]).automaton 1).traverse 500 [98, 99] [] = .ok [] := by
  have hvalue : ∀ b ∈ ([97, 98, 98, 99] : Bytes), b < terminator := by simp [terminator]
  have hother : ∀ b ∈ ([98, 99] : Bytes), b < terminator := by simp [terminator]
  have hexpands : ExpandsTo [97, 42, 42, 99] [97, 98, 98, 99] :=
    ⟨[[97], [98], [98], [99]],
      .cons (.inr rfl) (.cons (.inl rfl) (.cons (.inl rfl) (.cons (.inr rfl) .nil))), rfl⟩
  have hfails : ¬ ExpandsTo [97, 42, 42, 99] [98, 99] := by
    intro h
    obtain ⟨part, rest, heq, hpart, -⟩ := expandsTo_cons_iff.1 h
    -- the first part is the `a` with which the value does not begin
    obtain rfl : part = [97] := hpart.resolve_left (by decide)
    simp at heq
  exact ⟨hvalue, hexpands, (shell_automaton_finds_expansions _ 1 500 hvalue).1 hexpands, hother,
    hfails, (shell_automaton_finds_expansions _ 1 500 hother).2 hfails⟩

end ByteMatch.Glob
