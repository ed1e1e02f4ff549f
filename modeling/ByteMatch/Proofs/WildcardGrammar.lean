import ByteMatch.Pattern
import ByteMatch.Proofs.Expansions

/-!
# The grammar of wildcard patterns

A wildcard pattern is written in tokens, one behind the other (`Wildcard.Written`): a byte other than
a backslash, a backslash and a star, or two backslashes. Here the grammar is stated without the reader,
and the reader is measured against it:

* `Wildcard.readWildcard_written`: the reader takes tokens off the front, whatever stands behind them,
  and counts the bytes that they are written in. Everything else about it follows from this.
* `Wildcard.exists_written_append`: every pattern consists of tokens up to a place where none goes on,
  which is the end or a backslash that nothing fits behind.
* `Wildcard.ofWildcard_eq_ok_iff`, `Wildcard.ofWildcard_eq_error_iff`: a pattern is read if it is
  written in tokens, and otherwise refused for the backslash behind the last of them
  (`Wildcard.Offends`). A pattern that is written in tokens is so in one way only
  (`Wildcard.written_injective`).

The message shown for a refused pattern tells which backslash it was, `PatternError.message_injective`.

What a pattern stands for is again said of its tokens as they are written (`Wildcard.StandsFor`), and
its automaton finds just these values among those below the terminator
(`Wildcard.patterns_are_read_by_tokens`).
-/

namespace ByteMatch

/-! ### What the message tells -/

namespace PatternError

/-- Each byte is shown as a character of its own. -/
private theorem shown_byte_injective {b c : UInt8} (h : Char.ofNat b.toNat = Char.ofNat c.toNat) :
    b = c := by
  have hshown : ∀ b : UInt8, (Char.ofNat b.toNat).toNat = b.toNat := by
    intro b
    have hlt := b.toNat_lt
    rw [Char.ofNat, dif_pos (.inl (by omega))]
    exact UInt32.toNat_ofNatLT
  have hnumber := congrArg Char.toNat h
  rw [hshown, hshown] at hnumber
  exact UInt8.toNat_inj.1 hnumber

/-- A number is read back from its digits. -/
private theorem eq_of_toString_eq {i j : Nat} (h : toString i = toString j) : i = j := by
  have hdigits : Nat.toDigits 10 i = Nat.toDigits 10 j := by
    rw [← Nat.toList_repr, ← Nat.toList_repr]
    exact congrArg String.toList h
  have hread : Nat.ofDigitChars 10 (Nat.toDigits 10 i) 0 = i := Nat.ofDigitChars_ten_toDigits
  rw [← hread, hdigits, Nat.ofDigitChars_ten_toDigits]

private theorem reason_invalidEscape (b : UInt8) (offset : Nat) :
    (invalidEscape b offset).reason = "invalid escape '\\" ++
      (String.singleton (Char.ofNat b.toNat) ++ ("' at offset " ++ toString offset)) := by
  rw [← String.append_assoc, ← String.append_assoc]
  rfl

/-- The reasons of the two kinds begin differently. -/
private theorem reason_invalidEscape_ne (b : UInt8) (offset : Nat) :
    (invalidEscape b offset).reason ≠ trailingBackslash.reason := by
  intro h
  have htrailing : trailingBackslash.reason = "pattern ends with an unescaped backslash" := rfl
  rw [reason_invalidEscape, htrailing] at h
  have hchars := congrArg String.toList h
  rw [String.toList_append] at hchars
  simp at hchars

/-- **The message tells what is wrong**, and where. -/
theorem message_injective : Function.Injective message := by
  intro e e' h
  have hreason : e.reason = e'.reason := (String.append_right_inj _).1 h
  cases e with
  | invalidEscape b i =>
    cases e' with
    | invalidEscape c j =>
      rw [reason_invalidEscape, reason_invalidEscape, String.append_right_inj,
        String.singleton_append_inj, String.append_right_inj] at hreason
      rw [shown_byte_injective hreason.1, eq_of_toString_eq hreason.2]
    | trailingBackslash => exact absurd hreason (reason_invalidEscape_ne b i)
  | trailingBackslash =>
    cases e' with
    | invalidEscape c j => exact absurd hreason.symm (reason_invalidEscape_ne c j)
    | trailingBackslash => rfl

end PatternError

namespace Wildcard

variable {α : Type}

/-! ### Tokens as they are written -/

/-- A token of a wildcard pattern as it is written. -/
inductive Written where
  /-- A byte without a backslash before it, which is none itself. An asterisk written so is a star. -/
  | plain (b : UInt8) (h : b ≠ escapeByte)
  /-- An asterisk or a backslash with a backslash before it. -/
  | escaped (b : UInt8) (h : b = starByte ∨ b = escapeByte)
deriving DecidableEq, Repr

namespace Written

/-- The bytes that a token is written in. -/
def text : Written → Bytes
  | plain b _ => [b]
  | escaped b _ => [escapeByte, b]

/-- The token that is meant. -/
def token : Written → Token
  | plain b _ => if b = starByte then .star else .byte b
  | escaped b _ => .byte b

/-- **What a token stands for**: an asterisk without a backslash for any bytes, everything else for the
one byte written. -/
def Covers : Written → Bytes → Prop
  | plain b _, part => b = starByte ∨ part = [b]
  | escaped b _, part => part = [b]

theorem covers_iff (w : Written) (part : Bytes) :
    w.Covers part ↔ w.token.Covers (fun _ => True) part := by
  cases w with
  | plain b h => by_cases hb : b = starByte <;> simp [Covers, token, hb, Token.Covers]
  | escaped b h => rfl

/-- A byte that has to be written with a backslash is not meant without one. -/
theorem token_plain_ne_escaped {b c : UInt8} (hb : b ≠ escapeByte)
    (hc : c = starByte ∨ c = escapeByte) : (plain b hb).token ≠ (escaped c hc).token := by
  intro h
  simp only [token] at h
  split at h
  · contradiction
  · next hstar =>
    obtain rfl : b = c := Token.byte.inj h
    exact hc.elim hstar hb

/-- The token that is meant tells how it was written. -/
theorem token_injective : Function.Injective token := by
  intro w w' h
  cases w with
  | plain b hb =>
    cases w' with
    | plain c hc =>
      -- both are stars, or both are the byte meant
      simp only [token] at h
      split at h <;> split at h <;> simp_all
    | escaped c hc => exact absurd h (token_plain_ne_escaped hb hc)
  | escaped b hb =>
    cases w' with
    | plain c hc => exact absurd h.symm (token_plain_ne_escaped hc hb)
    | escaped c hc =>
      obtain rfl : b = c := Token.byte.inj h
      rfl

end Written

/-- The pattern that consists of the tokens. -/
def written (tokens : List Written) : Bytes := tokens.flatMap Written.text

/-- **What tokens stand for**: the value consists of one part for each of them. -/
def StandsFor (tokens : List Written) (value : Bytes) : Prop :=
  ∃ parts : List Bytes, List.Forall₂ Written.Covers tokens parts ∧ value = parts.flatten

variable {pattern value rest : Bytes} {tokens tokens' : List Written} {c : UInt8} {e : PatternError}

theorem written_cons (w : Written) (tokens : List Written) :
    written (w :: tokens) = w.text ++ written tokens := List.flatMap_cons

/-- Tokens stand for what the glob of them matches, stars standing for any bytes. -/
theorem standsFor_iff_matches :
    StandsFor tokens value ↔ Glob.Matches (fun _ => True) (tokens.map Written.token) value := by
  rw [Glob.matches_iff_exists_parts]
  simp only [List.forall₂_map_left_iff, ← Written.covers_iff]
  rfl

/-! ### Reading tokens -/

/-- One token is taken off the front. -/
theorem readWildcard_text (offset : Nat) (w : Written) (rest : Bytes) :
    Glob.readWildcard offset (w.text ++ rest) =
      (w.token :: ·) <$> Glob.readWildcard (offset + w.text.length) rest := by
  cases w with
  | plain b h =>
    -- a byte that is no backslash is a star or stands for itself
    rw [Written.text, List.singleton_append, Glob.readWildcard.eq_def]
    simp only [if_neg h]
    by_cases hb : b = starByte
    · rw [if_pos hb, Written.token, if_pos hb]
      rfl
    · rw [if_neg hb, Written.token, if_neg hb]
      rfl
  | escaped b h =>
    -- the backslash takes the byte behind it along
    rw [Written.text, List.cons_append, List.singleton_append, Glob.readWildcard.eq_def]
    simp only [if_true, if_pos h]
    rfl

/-- **Tokens are taken off the front**, and the reader goes on behind them. -/
theorem readWildcard_written (offset : Nat) (tokens : List Written) (rest : Bytes) :
    Glob.readWildcard offset (written tokens ++ rest) =
      (tokens.map Written.token ++ ·) <$>
        Glob.readWildcard (offset + (written tokens).length) rest := by
  induction tokens generalizing offset with
  | nil => simp [written]
  | cons w tokens ih =>
    calc Glob.readWildcard offset (written (w :: tokens) ++ rest)
        = (w.token :: ·) <$>
            Glob.readWildcard (offset + w.text.length) (written tokens ++ rest) := by
          rw [written_cons, List.append_assoc, readWildcard_text]
      _ = (w.token :: ·) <$> (tokens.map Written.token ++ ·) <$>
            Glob.readWildcard (offset + w.text.length + (written tokens).length) rest := by
          rw [ih]
      _ = ((w :: tokens).map Written.token ++ ·) <$>
            Glob.readWildcard (offset + (written (w :: tokens)).length) rest := by
          rw [Functor.map_map, written_cons, List.length_append, Nat.add_assoc]
          rfl

theorem ofWildcard_written (tokens : List Written) :
    Glob.ofWildcard (written tokens) = .ok (tokens.map Written.token) := by
  have hread := readWildcard_written 0 tokens []
  rw [List.append_nil] at hread
  rw [Glob.ofWildcard, hread, Glob.readWildcard]
  show Except.ok (tokens.map Written.token ++ []) = _
  rw [List.append_nil]

/-- A pattern that is written in tokens is so in one way only. -/
theorem written_injective : Function.Injective written := by
  intro tokens tokens' h
  -- the reader gets the same tokens back from both, and a token tells how it was written
  have hread : Except.ok (tokens.map Written.token) =
      (Except.ok (tokens'.map Written.token) : Except PatternError Glob) := by
    rw [← ofWildcard_written, ← ofWildcard_written, h]
  exact List.map_injective_iff.2 Written.token_injective (Except.ok.inj hread)

/-! ### Where no token goes on -/

/-- Nothing that may follow a backslash. -/
abbrev NeedsNone (c : UInt8) : Prop := ¬ (c = starByte ∨ c = escapeByte)

/-- **What is wrong with a pattern first**: tokens stand before a backslash which begins none. -/
inductive Offends (pattern : Bytes) : PatternError → Prop
  /-- The backslash stands before a byte that needs none. -/
  | escape (before : List Written) (c : UInt8) (rest : Bytes) :
    pattern = written before ++ escapeByte :: c :: rest → NeedsNone c →
      Offends pattern (.invalidEscape c (written before).length)
  /-- The backslash stands at the end. -/
  | trailing (before : List Written) :
    pattern = written before ++ [escapeByte] → Offends pattern .trailingBackslash

/-- **Every pattern is written in tokens up to a place where none goes on.** -/
theorem exists_written_append (pattern : Bytes) :
    ∃ tokens rest, pattern = written tokens ++ rest ∧
      (rest = [] ∨ rest = [escapeByte] ∨
        ∃ c more, rest = escapeByte :: c :: more ∧ NeedsNone c) := by
  -- a token takes one byte or two, so the cases go two bytes deep
  match pattern with
  | [] => exact ⟨[], [], rfl, .inl rfl⟩
  | [b] =>
    by_cases hb : b = escapeByte
    · exact ⟨[], [b], rfl, .inr (.inl (by rw [hb]))⟩
    · exact ⟨[.plain b hb], [], rfl, .inl rfl⟩
  | b :: c :: rest =>
    by_cases hb : b = escapeByte
    · subst hb
      by_cases hc : c = starByte ∨ c = escapeByte
      · -- the two bytes are one token
        obtain ⟨tokens, more, hrest, hstop⟩ := exists_written_append rest
        refine ⟨.escaped c hc :: tokens, more, ?_, hstop⟩
        rw [written_cons, List.append_assoc, ← hrest]
        rfl
      · exact ⟨[], escapeByte :: c :: rest, rfl, .inr (.inr ⟨c, rest, rfl, hc⟩)⟩
    · obtain ⟨tokens, more, hrest, hstop⟩ := exists_written_append (c :: rest)
      refine ⟨.plain b hb :: tokens, more, ?_, hstop⟩
      rw [written_cons, List.append_assoc, ← hrest]
      rfl
termination_by pattern.length

theorem written_or_offends (pattern : Bytes) :
    (∃ tokens, pattern = written tokens) ∨ ∃ e, Offends pattern e := by
  obtain ⟨tokens, rest, rfl, hstop⟩ := exists_written_append pattern
  rcases hstop with rfl | rfl | ⟨c, more, rfl, hc⟩
  · exact .inl ⟨tokens, List.append_nil _⟩
  · exact .inr ⟨_, .trailing tokens rfl⟩
  · exact .inr ⟨_, .escape tokens c more rfl hc⟩

/-- The reader refuses a pattern for its first offence. -/
theorem ofWildcard_of_offends (h : Offends pattern e) : Glob.ofWildcard pattern = .error e := by
  cases h with
  | escape before c rest heq hc =>
    -- behind the tokens the reader stops, with as many bytes read as they are written in
    have hstop : ∀ offset, Glob.readWildcard offset (escapeByte :: c :: rest) =
        .error (.invalidEscape c offset) := by
      intro offset
      rw [Glob.readWildcard.eq_def]
      simp only [if_true, if_neg hc]
    rw [heq, Glob.ofWildcard, readWildcard_written, hstop, Nat.zero_add]
    rfl
  | trailing before heq =>
    have hstop : ∀ offset, Glob.readWildcard offset [escapeByte] =
        .error .trailingBackslash := by
      intro offset
      rw [Glob.readWildcard.eq_def]
      simp only [if_true]
    rw [heq, Glob.ofWildcard, readWildcard_written, hstop]
    rfl

/-- **A pattern is read if it is written in tokens.** -/
theorem ofWildcard_eq_ok_iff {glob : Glob} :
    Glob.ofWildcard pattern = .ok glob ↔
      ∃ tokens, pattern = written tokens ∧ glob = tokens.map Written.token := by
  refine ⟨fun h => ?_, ?_⟩
  · rcases written_or_offends pattern with ⟨tokens, rfl⟩ | ⟨e, hoffends⟩
    · rw [ofWildcard_written] at h
      exact ⟨tokens, rfl, (Except.ok.inj h).symm⟩
    · rw [ofWildcard_of_offends hoffends] at h
      contradiction
  · rintro ⟨tokens, rfl, rfl⟩
    exact ofWildcard_written tokens

/-- **A pattern is refused for its first offence**, and only if it has one. -/
theorem ofWildcard_eq_error_iff : Glob.ofWildcard pattern = .error e ↔ Offends pattern e := by
  refine ⟨fun h => ?_, ofWildcard_of_offends⟩
  rcases written_or_offends pattern with ⟨tokens, rfl⟩ | ⟨e', hoffends⟩
  · rw [ofWildcard_written] at h
    contradiction
  · rw [ofWildcard_of_offends hoffends] at h
    obtain rfl := Except.error.inj h
    exact hoffends

/-! ### The automaton of a pattern -/

variable {payload : α}

theorem automaton_written (tokens : List Written) (payload : α) :
    (Pattern.wildcard (written tokens)).automaton payload =
      .ok (Glob.automaton (tokens.map Written.token) payload) := by
  rw [Pattern.automaton, ofWildcard_written]
  rfl

theorem automaton_eq_error_iff :
    (Pattern.wildcard pattern).automaton payload = .error e ↔ Offends pattern e := by
  rw [← ofWildcard_eq_error_iff, Pattern.automaton]
  cases Glob.ofWildcard pattern with
  | error e' =>
    refine ⟨fun h => ?_, fun h => ?_⟩
    · exact congrArg _ (Except.error.inj h)
    · exact congrArg _ (Except.error.inj h)
  | ok glob => exact iff_of_false nofun nofun

variable [DecidableEq α]

/-- **Wildcard patterns are read by their tokens.** A pattern has an automaton exactly if it is written
in tokens, which it is then in one way; otherwise it is refused for the first backslash that begins no
token, and the message tells which one that is. The automaton answers a value below the terminator with
its payload if the tokens stand for it, and with nothing if they do not. -/
theorem patterns_are_read_by_tokens (pattern : Bytes) (payload : α) :
    ((∃ fa, (Pattern.wildcard pattern).automaton payload = .ok fa) ↔
      ∃! tokens, pattern = written tokens) ∧
    (∀ e, (Pattern.wildcard pattern).automaton payload = .error e ↔ Offends pattern e) ∧
    (∀ e e' : PatternError, e.message = e'.message → e = e') ∧
    ∀ tokens, pattern = written tokens →
      ∃ fa, (Pattern.wildcard pattern).automaton payload = .ok fa ∧
        ∀ (threshold : Nat) (value : Bytes), (∀ b ∈ value, b < terminator) →
          (StandsFor tokens value → fa.traverse threshold value [] = .ok [payload]) ∧
          (¬ StandsFor tokens value → fa.traverse threshold value [] = .ok []) := by
  refine ⟨⟨?_, ?_⟩, fun e => automaton_eq_error_iff, fun e e' h => ?_, ?_⟩
  · rintro ⟨fa, hfa⟩
    -- an automaton was built of a glob, so the pattern was read
    obtain ⟨glob, hglob, -⟩ := map_eq_ok_iff.1 hfa
    obtain ⟨tokens, rfl, -⟩ := ofWildcard_eq_ok_iff.1 hglob
    exact ⟨tokens, rfl, fun tokens' h => (written_injective h).symm⟩
  · rintro ⟨tokens, rfl, -⟩
    exact ⟨_, automaton_written tokens payload⟩
  · exact PatternError.message_injective h
  · rintro tokens rfl
    refine ⟨_, automaton_written tokens payload, fun threshold value hvalue => ?_⟩
    -- the walk accepts what the glob matches, which is what the tokens stand for
    have inside := Glob.stepsInside_automaton (tokens.map Written.token) payload
    refine Automaton.traverse_eq_of_yields_iff inside (fun x => ?_) threshold
    rw [Glob.exists_yields_automaton_iff, Glob.accepts_iff_of_lt_terminator hvalue,
      standsFor_iff_matches]

/-- The pattern `a\**\\`, in which the second asterisk is a star, stands for `a*x\`; in `\\\a` the
backslash behind the first two begins no token. -/
theorem patterns_are_read_by_tokens_backslashes :
    let tokens : List Written :=
      [.plain 97 (by decide), .escaped 42 (.inl rfl), .plain 42 (by decide), .escaped 92 (.inr rfl)]
    [97, 92, 42, 42, 92, 92] = written tokens ∧ (∀ b ∈ ([97, 42, 120, 92] : Bytes), b < terminator) ∧
      StandsFor tokens [97, 42, 120, 92] ∧
      (∃ fa, (Pattern.wildcard [97, 92, 42, 42, 92, 92]).automaton 1 = .ok fa ∧
        fa.traverse 500 [97, 42, 120, 92] [] = .ok [1]) ∧
      Offends [92, 92, 92, 97] (.invalidEscape 97 2) ∧
      (Pattern.wildcard [92, 92, 92, 97]).automaton 1 = .error (.invalidEscape 97 2) := by
  intro tokens
  have hpattern : [97, 92, 42, 42, 92, 92] = written tokens := rfl
  have hvalue : ∀ b ∈ ([97, 42, 120, 92] : Bytes), b < terminator := by simp [terminator]
  have hstands : StandsFor tokens [97, 42, 120, 92] :=
    ⟨[[97], [42], [120], [92]], .cons (.inr rfl) (.cons rfl (.cons (.inl rfl) (.cons rfl .nil))), rfl⟩
  have hoffends : Offends [92, 92, 92, 97] (.invalidEscape 97 2) :=
    .escape [.escaped 92 (.inr rfl)] 97 [] rfl (by decide)
  obtain ⟨-, -, -, hread⟩ := patterns_are_read_by_tokens [97, 92, 42, 42, 92, 92] 1
  obtain ⟨fa, hfa, hwalk⟩ := hread tokens hpattern
  obtain ⟨-, hrefused, -⟩ := patterns_are_read_by_tokens [92, 92, 92, 97] 1
  exact ⟨hpattern, hvalue, hstands, ⟨fa, hfa, (hwalk 500 _ hvalue).1 hstands⟩, hoffends,
    (hrefused _).2 hoffends⟩

end Wildcard

end ByteMatch
