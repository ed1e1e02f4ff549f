import ByteMatch.Proofs.Prepending
import ByteMatch.Proofs.Traversal

/-!
# What a glob matches, and what its automaton accepts

A glob matches a value that can be cut into what its tokens stand for, one part for each token
(`Glob.Matches`). The automaton of a glob reads the parts one after the other and then a terminator,
its stars reading any byte of the alphabet but the terminator (`Glob.yields_automaton_iff`).

The terminator that ends what the automaton accepts need not be the one behind the value: a byte of
the value itself may be it. So the automaton accepts the values that the glob matches without a star
over a terminator, and besides those of which it has matched a beginning when it comes to a
terminator inside (`Glob.accepts_iff`).
-/

namespace ByteMatch

variable {α : Type}

/-- What a token stands for: a byte for itself, a star for any string of bytes that are `wild`. -/
def Token.Covers (wild : UInt8 → Prop) : Token → Bytes → Prop
  | .byte b, part => part = [b]
  | .star, part => ∀ b ∈ part, wild b

namespace Glob

/-- **What a glob matches**: each token covers its part of the value. -/
def Matches (wild : UInt8 → Prop) : Glob → Bytes → Prop
  | [], value => value = []
  | token :: glob, value =>
    ∃ part rest, value = part ++ rest ∧ token.Covers wild part ∧ Matches wild glob rest

section Matches

variable {wild wild' : UInt8 → Prop} {glob : Glob} {value : Bytes} {b : UInt8}

theorem matches_nil_iff : Matches wild [] value ↔ value = [] := Iff.rfl

theorem matches_byte_iff :
    Matches wild (.byte b :: glob) value ↔ ∃ rest, value = b :: rest ∧ Matches wild glob rest := by
  refine ⟨?_, ?_⟩
  · rintro ⟨part, rest, rfl, rfl, h⟩
    exact ⟨rest, rfl, h⟩
  · rintro ⟨rest, rfl, h⟩
    exact ⟨[b], rest, rfl, rfl, h⟩

theorem matches_star_iff :
    Matches wild (.star :: glob) value ↔
      ∃ skipped rest, value = skipped ++ rest ∧ (∀ b ∈ skipped, wild b) ∧
        Matches wild glob rest := Iff.rfl

/-- Only the bytes of the value have to be wild. -/
theorem Matches.imp (hwild : ∀ b ∈ value, wild b → wild' b) (h : Matches wild glob value) :
    Matches wild' glob value := by
  induction glob generalizing value with
  | nil => exact h
  | cons token glob ih =>
    -- what a star covers has become wild for the other reason as well
    obtain ⟨part, rest, rfl, hcovers, hrest⟩ := h
    refine ⟨part, rest, rfl, ?_, ih (fun b hb => hwild b (List.mem_append_right _ hb)) hrest⟩
    cases token with
    | byte c => exact hcovers
    | star => exact fun b hb => hwild b (List.mem_append_left _ hb) (hcovers b hb)

/-- Stars may read anything in a value without a terminator. -/
theorem matches_iff_of_not_mem (h : terminator ∉ value) :
    Matches (· ≠ terminator) glob value ↔ Matches (fun _ => True) glob value := by
  refine ⟨Matches.imp fun _ _ _ => trivial, Matches.imp fun b hb _ => ?_⟩
  rintro rfl
  exact h hb

end Matches

/-! ### Reading the tokens -/

section Reading

variable {g : Graph α} {token : Token} {glob : Glob} {read : Bytes} {payload p : α}

theorem stepsInside_prependToken (inside : g.seal.StepsInside) (token : Token) :
    (prependToken g token).seal.StepsInside := by
  cases token with
  | byte b => exact Graph.stepsInside_prependByte inside b
  | star => exact Graph.stepsInside_prependStar inside

/-- A token put in front reads what it stands for. -/
theorem yields_prependToken_iff (inside : g.seal.StepsInside) :
    (prependToken g token).seal.Yields read p ↔
      ∃ part rest, read = part ++ rest ∧ (∀ b ∈ part, InAlphabet b) ∧
        token.Covers (· ≠ terminator) part ∧ g.seal.Yields rest p := by
  cases token with
  | byte b =>
    rw [prependToken, Graph.yields_prependByte_iff inside]
    refine ⟨?_, ?_⟩
    · rintro ⟨hb, rest, rfl, hyields⟩
      exact ⟨[b], rest, rfl, by simpa using hb, rfl, hyields⟩
    · rintro ⟨part, rest, rfl, hpart, rfl, hyields⟩
      exact ⟨hpart b (List.mem_singleton_self b), rest, rfl, hyields⟩
  | star =>
    -- what a star skips is in the alphabet and is no terminator, byte by byte
    rw [prependToken, Graph.yields_prependStar_iff inside]
    refine exists_congr fun part => exists_congr fun rest => and_congr_right fun _ => ?_
    rw [← and_assoc]
    refine and_congr_left fun _ => ?_
    exact forall₂_and

private theorem stepsInside_foldr (inside : g.seal.StepsInside) (glob : Glob) :
    (glob.foldr (fun token g => prependToken g token) g).seal.StepsInside := by
  induction glob with
  | nil => exact inside
  | cons token glob ih => exact stepsInside_prependToken ih token

/-- **Tokens put in front read what the glob matches**, part by part. -/
theorem yields_foldr_iff (inside : g.seal.StepsInside) :
    (glob.foldr (fun token g => prependToken g token) g).seal.Yields read p ↔
      ∃ part rest, read = part ++ rest ∧ (∀ b ∈ part, InAlphabet b) ∧
        Matches (· ≠ terminator) glob part ∧ g.seal.Yields rest p := by
  induction glob generalizing read with
  | nil =>
    refine ⟨?_, ?_⟩
    · exact fun h => ⟨[], read, rfl, by simp, rfl, h⟩
    · rintro ⟨part, rest, rfl, -, rfl, h⟩
      exact h
  | cons token glob ih =>
    rw [List.foldr_cons, yields_prependToken_iff (stepsInside_foldr inside glob)]
    refine ⟨?_, ?_⟩
    · -- the part of the first token stands in front of the parts of the others
      rintro ⟨part, rest, rfl, hpart, hcovers, hyields⟩
      obtain ⟨more, rest, rfl, hmore, hmatches, hyields⟩ := ih.1 hyields
      refine ⟨part ++ more, rest, (List.append_assoc _ _ _).symm, fun b hb => ?_,
        ⟨part, more, rfl, hcovers, hmatches⟩, hyields⟩
      exact (List.mem_append.1 hb).elim (hpart b) (hmore b)
    · rintro ⟨_, rest, rfl, hbytes, ⟨part, more, rfl, hcovers, hmatches⟩, hyields⟩
      refine ⟨part, more ++ rest, List.append_assoc _ _ _,
        fun b hb => hbytes b (List.mem_append_left _ hb), hcovers, ih.2 ?_⟩
      exact ⟨more, rest, rfl, fun b hb => hbytes b (List.mem_append_right _ hb), hmatches, hyields⟩

theorem stepsInside_automaton (glob : Glob) (payload : α) :
    (glob.automaton payload).StepsInside :=
  stepsInside_foldr (Graph.stepsInside_prependEnd (Graph.stepsInside_single _)) glob

/-- **The automaton of a glob** yields its payload for what the glob matches, with a terminator
behind it. -/
theorem yields_automaton_iff :
    (glob.automaton payload).Yields read p ↔
      p = payload ∧ ∃ part, read = part ++ [terminator] ∧ (∀ b ∈ part, InAlphabet b) ∧
        Matches (· ≠ terminator) glob part := by
  have hsingle : (Graph.accept payload).seal.StepsInside := Graph.stepsInside_single _
  -- behind the tokens the terminator is read, and then nothing
  rw [automaton, yields_foldr_iff (Graph.stepsInside_prependEnd hsingle)]
  simp only [Graph.yields_prependEnd_iff hsingle, Graph.yields_accept_iff]
  refine ⟨?_, ?_⟩
  · rintro ⟨part, _, rfl, hpart, hmatches, _, rfl, rfl, rfl⟩
    exact ⟨rfl, part, rfl, hpart, hmatches⟩
  · rintro ⟨rfl, part, rfl, hpart, hmatches⟩
    exact ⟨part, [terminator], rfl, hpart, hmatches, [], rfl, rfl, rfl⟩

end Reading

/-! ### Accepting values -/

/-- What makes the automaton of a glob accept a value: what it matches, with a terminator behind it,
is where the value begins. -/
def Accepts (glob : Glob) (value : Bytes) : Prop :=
  ∃ part, part ++ [terminator] <+: symbols value ∧ (∀ b ∈ part, InAlphabet b) ∧
    Matches (· ≠ terminator) glob part

/-- A terminator inside the value ends a beginning that the glob matches. -/
def EndsEarly (glob : Glob) (value : Bytes) : Prop :=
  ∃ part, part ++ [terminator] <+: value ∧ (∀ b ∈ part, InAlphabet b) ∧
    Matches (· ≠ terminator) glob part

variable {glob : Glob} {value : Bytes}

theorem accepts_iff :
    glob.Accepts value ↔
      ((∀ b ∈ value, InAlphabet b) ∧ Matches (· ≠ terminator) glob value) ∨
        glob.EndsEarly value := by
  unfold Accepts EndsEarly symbols
  -- a beginning of the value with a terminator behind it is the whole or lies within the value
  simp only [List.prefix_concat_iff, List.append_cancel_right_eq, or_and_right, exists_or,
    exists_eq_left]

/-- A terminator that is not there ends nothing. -/
theorem not_endsEarly (h : terminator ∉ value) : ¬ glob.EndsEarly value := by
  rintro ⟨part, ⟨rest, rfl⟩, -⟩
  exact h (by simp)

variable {payload p : α}

/-- What the automaton of a glob yields for a value is its payload, if the value is accepted. -/
theorem exists_yields_automaton_iff :
    (∃ read, read <+: symbols value ∧ (glob.automaton payload).Yields read p) ↔
      p = payload ∧ glob.Accepts value := by
  simp only [yields_automaton_iff, Accepts]
  refine ⟨?_, ?_⟩
  · rintro ⟨_, hread, rfl, part, rfl, hpart, hmatches⟩
    exact ⟨rfl, part, hread, hpart, hmatches⟩
  · rintro ⟨rfl, part, hread, hpart, hmatches⟩
    exact ⟨_, hread, rfl, part, rfl, hpart, hmatches⟩

variable [DecidableEq α] {threshold : Nat} {incoming found : List α}

/-- A walk through the automaton of a glob finds the payload if the value is accepted. -/
theorem mem_traverse_automaton_iff
    (h : (glob.automaton payload).traverse threshold value incoming = .ok found) :
    p ∈ found ↔ p ∈ incoming ∨ p = payload ∧ glob.Accepts value := by
  rw [(Automaton.answers_of_traverse h).mem_iff, exists_yields_automaton_iff]

end Glob

end ByteMatch
