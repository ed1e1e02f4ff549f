import ByteMatch.Pattern.Segments
import ByteMatch.Proofs.ScanLanguage
import ByteMatch.Proofs.WildcardGrammar

/-!
# Patterns read in segments are the patterns read in tokens

The two readers of segments have nothing in common: the one cuts the pattern at its stars and puts the
stars back between the pieces, the other goes through it by a position, with the segments that are
finished and the bytes of one that is not. Both are measured against the readers of tokens, through
the one way of grouping tokens into segments (`Segment.ofGlob`):

* `Segment.ofShell_eq`, `Segment.ofWildcard_eq`: each reader gives the segments of the tokens that the
  pattern has in its style, and refuses what the reader of tokens refuses, for the same reason. What is
  kept on the way is the same for both: the tokens still to come are grouped behind the bytes gathered
  (`Segment.ofGlobBehind`);
* `Segment.automaton_ofGlob`: segments put the same states in front as their tokens, in the same order,
  so the automata are equal state by state and not only in what they find.

So the readers agree where their tokens do. A pattern without a backslash has the same tokens in both
styles (`Glob.ofWildcard_of_not_mem`), and bytes that are written with a backslash wherever one may
stand come back as they were (`Glob.ofWildcard_escaped`), which makes them the pattern of a whole value.
-/

namespace ByteMatch

variable {α : Type}

namespace Segment

variable {pattern gathered rest : Bytes} {glob : Glob} {b c : UInt8}

/-- The segments of a glob, behind the bytes `gathered` of a literal that may still go on. -/
def ofGlobBehind (gathered : Bytes) : Glob → List Segment
  | [] => ofLiteral gathered
  | .byte b :: glob => ofGlobBehind (gathered ++ [b]) glob
  | .star :: glob => ofLiteral gathered ++ star :: ofGlobBehind [] glob

/-- **The segments of a glob**: its stars, and the bytes between them. -/
def ofGlob (glob : Glob) : List Segment := ofGlobBehind [] glob

/-! ### Shell style -/

/-- The first piece goes on with what is gathered, and each of the others follows its star. -/
theorem ofGlobBehind_ofShell {first : Bytes} {others : List Bytes}
    (h : LiteralScan.segments pattern = first :: others) (gathered : Bytes) :
    ofGlobBehind gathered (Glob.ofShell pattern) =
      ofLiteral (gathered ++ first) ++ others.flatMap fun piece => star :: ofLiteral piece := by
  induction pattern generalizing gathered first others with
  | nil =>
    obtain ⟨rfl, rfl⟩ := List.cons.inj h
    simp [Glob.ofShell, ofGlobBehind]
  | cons b rest ih =>
    obtain ⟨next, more, hrest⟩ := List.exists_cons_of_ne_nil (LiteralScan.segments_ne_nil rest)
    have htokens : Glob.ofShell (b :: rest) =
      (if b = starByte then .star else .byte b) :: Glob.ofShell rest := rfl
    rw [htokens]
    by_cases hb : b = starByte
    · -- the pattern is cut here, so nothing is gathered for the next piece
      rw [hb, LiteralScan.segments_star] at h
      obtain ⟨rfl, rfl⟩ := List.cons.inj h
      rw [if_pos hb, ofGlobBehind, ih hrest, hrest, List.flatMap_cons, List.append_nil,
        List.nil_append]
      rfl
    · -- the byte goes over from the piece to what is gathered
      rw [LiteralScan.segments_byte hb hrest] at h
      obtain ⟨rfl, rfl⟩ := List.cons.inj h
      rw [if_neg hb, ofGlobBehind, ih hrest, List.append_assoc, List.singleton_append]

/-- Every piece behind the first has its star before it. -/
private theorem flatMap_zipIdx_succ (pieces : List Bytes) (place : Nat) :
    ((pieces.zipIdx (place + 1)).flatMap fun (piece, place) => ofPiece place piece) =
      pieces.flatMap fun piece => star :: ofLiteral piece := by
  induction pieces generalizing place with
  | nil => rfl
  | cons piece pieces ih =>
    rw [List.zipIdx_cons, List.flatMap_cons, List.flatMap_cons, ih]
    rfl

/-- **Cutting a pattern at its stars** gives the segments of its tokens. -/
theorem ofShell_eq (pattern : Bytes) : ofShell pattern = ofGlob (Glob.ofShell pattern) := by
  obtain ⟨first, others, h⟩ := List.exists_cons_of_ne_nil (LiteralScan.segments_ne_nil pattern)
  rw [ofGlob, ofGlobBehind_ofShell h, ofShell, h, List.zipIdx_cons, List.flatMap_cons,
    flatMap_zipIdx_succ]
  rfl

/-! ### Wildcard style -/

theorem readWildcard_star (offset : Nat) (rest : Bytes) :
    Glob.readWildcard offset (starByte :: rest) =
      (Token.star :: ·) <$> Glob.readWildcard (offset + 1) rest :=
  Wildcard.readWildcard_text offset (.plain starByte (by decide)) rest

theorem readWildcard_byte (hstar : b ≠ starByte) (hescape : b ≠ escapeByte) (offset : Nat)
    (rest : Bytes) :
    Glob.readWildcard offset (b :: rest) =
      (Token.byte b :: ·) <$> Glob.readWildcard (offset + 1) rest := by
  have hread := Wildcard.readWildcard_text offset (.plain b hescape) rest
  rw [Wildcard.Written.token, if_neg hstar] at hread
  exact hread

theorem readWildcard_escaped (hc : c = starByte ∨ c = escapeByte) (offset : Nat) (rest : Bytes) :
    Glob.readWildcard offset (escapeByte :: c :: rest) =
      (Token.byte c :: ·) <$> Glob.readWildcard (offset + 2) rest :=
  Wildcard.readWildcard_text offset (.escaped c hc) rest

/-- **What is kept at every position**: the segments that come out are those finished so far, and then
those of the tokens behind the position, together with the bytes gathered before it. -/
theorem readWildcard_eq (pattern : Bytes) (segments : List Segment) (gathered : Bytes)
    (position : Nat) :
    readWildcard pattern segments gathered position =
      (segments ++ ofGlobBehind gathered ·) <$>
        Glob.readWildcard position (pattern.drop position) := by
  fun_induction readWildcard pattern segments gathered position with
  | case1 segments gathered position h hstar ih =>
    -- a star finishes the literal
    rw [ih, List.drop_eq_getElem_cons h, hstar, readWildcard_star, Functor.map_map]
    simp only [ofGlobBehind, List.append_assoc, List.singleton_append]
  | case2 segments gathered position h hstar hescape hnext =>
    -- a backslash that nothing follows
    have hrest : pattern.drop (position + 1) = [] :=
      List.drop_eq_nil_of_le (List.getElem?_eq_none_iff.1 hnext)
    rw [List.drop_eq_getElem_cons h, hescape, hrest, Glob.readWildcard.eq_def]
    rfl
  | case3 segments gathered position h hstar hescape c hnext hc ih =>
    -- a backslash and the byte that it takes along: the position goes on by two
    obtain ⟨h', rfl⟩ := List.getElem?_eq_some_iff.1 hnext
    rw [ih, List.drop_eq_getElem_cons h, hescape, List.drop_eq_getElem_cons h',
      readWildcard_escaped hc, Functor.map_map]
    rfl
  | case4 segments gathered position h hstar hescape c hnext hc =>
    -- a backslash before a byte that needs none
    obtain ⟨h', rfl⟩ := List.getElem?_eq_some_iff.1 hnext
    rw [List.drop_eq_getElem_cons h, hescape, List.drop_eq_getElem_cons h',
      Glob.readWildcard.eq_def]
    simp only [if_true, if_neg hc]
    rfl
  | case5 segments gathered position h hstar hescape ih =>
    -- any other byte is gathered
    rw [ih, List.drop_eq_getElem_cons h, readWildcard_byte hstar hescape, Functor.map_map]
    rfl
  | case6 segments gathered position h =>
    -- the end finishes the literal as well
    rw [List.drop_eq_nil_of_le (Nat.not_lt.1 h), Glob.readWildcard]
    rfl

/-- **Going through a pattern by a position** gives the segments of its tokens, or the same refusal. -/
theorem ofWildcard_eq (pattern : Bytes) :
    ofWildcard pattern = ofGlob <$> Glob.ofWildcard pattern := by
  rw [ofWildcard, readWildcard_eq, List.drop_zero]
  rfl

/-! ### The automaton of segments -/

private theorem foldr_prepend_ofLiteral (g : Graph α) (bytes : Bytes) :
    (ofLiteral bytes).foldr (fun segment g => prepend g segment) g = g.prependBytes bytes := by
  cases bytes <;> rfl

private theorem prependBytes_concat (g : Graph α) (bytes : Bytes) (b : UInt8) :
    g.prependBytes (bytes ++ [b]) = (g.prependByte b).prependBytes bytes := by
  rw [Graph.prependBytes, List.foldr_append]
  rfl

/-- Segments put in front what their tokens put in front, and before it the bytes gathered. -/
theorem foldr_prepend_ofGlobBehind (g : Graph α) (gathered : Bytes) (glob : Glob) :
    (ofGlobBehind gathered glob).foldr (fun segment g => prepend g segment) g =
      (glob.foldr (fun token g => Glob.prependToken g token) g).prependBytes gathered := by
  induction glob generalizing gathered with
  | nil => exact foldr_prepend_ofLiteral g gathered
  | cons token glob ih =>
    cases token with
    | byte b =>
      rw [ofGlobBehind, ih, prependBytes_concat]
      rfl
    | star =>
      rw [ofGlobBehind, List.foldr_append, List.foldr_cons, ih, foldr_prepend_ofLiteral]
      rfl

/-- **The automaton of segments is that of their tokens**, state by state. -/
theorem automaton_ofGlob (glob : Glob) (payload : α) :
    automaton (ofGlob glob) payload = glob.automaton payload := by
  rw [automaton, ofGlob, foldr_prepend_ofGlobBehind]
  rfl

/-- The automaton of a shell-style pattern is that of its segments. -/
theorem shell_automaton_eq (pattern : Bytes) (payload : α) :
    (Pattern.shell pattern).automaton payload = .ok (automaton (ofShell pattern) payload) := by
  rw [ofShell_eq, automaton_ofGlob]
  rfl

/-- The automaton of a wildcard pattern is that of its segments, and a pattern is refused that cannot
be read in segments. -/
theorem wildcard_automaton_eq (pattern : Bytes) (payload : α) :
    (Pattern.wildcard pattern).automaton payload = (automaton · payload) <$> ofWildcard pattern := by
  rw [ofWildcard_eq, Functor.map_map]
  simp only [automaton_ofGlob]
  rfl

/-- The automaton of a literal that is left out if it is empty is that of the whole value. -/
theorem automaton_ofLiteral (bytes : Bytes) (payload : α) :
    automaton (ofLiteral bytes) payload = Literal.whole bytes payload := by
  rw [automaton, foldr_prepend_ofLiteral, Literal.whole]

end Segment

/-! ### Patterns without a star or a backslash of their own -/

namespace Glob

/-- Without a backslash, a pattern means the same in both styles. -/
theorem readWildcard_of_not_mem {pattern : Bytes} (h : escapeByte ∉ pattern) (offset : Nat) :
    readWildcard offset pattern = .ok (ofShell pattern) := by
  induction pattern generalizing offset with
  | nil => rfl
  | cons b rest ih =>
    rw [List.mem_cons, not_or] at h
    have hrest := ih h.2 (offset + 1)
    have hescape : b ≠ escapeByte := Ne.symm h.1
    by_cases hb : b = starByte
    · rw [hb, Segment.readWildcard_star, hrest]
      rfl
    · rw [Segment.readWildcard_byte hb hescape, hrest, ofShell, ofShell, List.map_cons, if_neg hb]
      rfl

theorem ofWildcard_of_not_mem {pattern : Bytes} (h : escapeByte ∉ pattern) :
    ofWildcard pattern = .ok (ofShell pattern) := readWildcard_of_not_mem h 0

/-- **Bytes that are meant literally, as they are written**: each asterisk and each backslash has a
backslash before it. -/
def escaped (bytes : Bytes) : Bytes :=
  bytes.flatMap fun b => if b = starByte ∨ b = escapeByte then [escapeByte, b] else [b]

theorem readWildcard_escaped (bytes : Bytes) (offset : Nat) :
    readWildcard offset (escaped bytes) = .ok (bytes.map .byte) := by
  induction bytes generalizing offset with
  | nil => rfl
  | cons b rest ih =>
    rw [escaped, List.flatMap_cons]
    by_cases hb : b = starByte ∨ b = escapeByte
    · -- the backslash that was added is taken off again
      rw [if_pos hb, List.cons_append, List.singleton_append, Segment.readWildcard_escaped hb]
      exact congrArg _ (ih (offset + 2))
    · rw [if_neg hb, List.singleton_append,
        Segment.readWildcard_byte (fun h => hb (.inl h)) fun h => hb (.inr h)]
      exact congrArg _ (ih (offset + 1))

/-- **Reading takes back what escaping has added.** -/
theorem ofWildcard_escaped (bytes : Bytes) : ofWildcard (escaped bytes) = .ok (bytes.map .byte) :=
  readWildcard_escaped bytes 0

end Glob

namespace Segment

/-- Bytes without a star among them are gathered to the end. -/
theorem ofGlobBehind_map_byte (gathered bytes : Bytes) :
    ofGlobBehind gathered (bytes.map .byte) = ofLiteral (gathered ++ bytes) := by
  induction bytes generalizing gathered with
  | nil => rw [List.map_nil, ofGlobBehind, List.append_nil]
  | cons b rest ih => rw [List.map_cons, ofGlobBehind, ih, List.append_assoc, List.singleton_append]

theorem ofWildcard_escaped (bytes : Bytes) :
    ofWildcard (Glob.escaped bytes) = .ok (ofLiteral bytes) := by
  rw [ofWildcard_eq, Glob.ofWildcard_escaped]
  exact congrArg Except.ok (ofGlobBehind_map_byte [] bytes)

/-- **The builders of patterns agree.** A pattern without a backslash is read in the same segments in
shell style and in wildcard style; bytes that are escaped are read in wildcard style as the one literal
that they are. What is built is in either case the automaton of the segments: the same start, the same
states under the same numbers, with the same closures. -/
theorem builders_agree (payload : α) :
    (∀ pattern : Bytes, escapeByte ∉ pattern →
      ofWildcard pattern = .ok (ofShell pattern) ∧
      (Pattern.wildcard pattern).automaton payload = .ok (automaton (ofShell pattern) payload) ∧
      (Pattern.shell pattern).automaton payload = .ok (automaton (ofShell pattern) payload)) ∧
    ∀ bytes : Bytes,
      ofWildcard (Glob.escaped bytes) = .ok (ofLiteral bytes) ∧
      (Pattern.wildcard (Glob.escaped bytes)).automaton payload =
        .ok (automaton (ofLiteral bytes) payload) ∧
      (Pattern.exactly bytes).automaton payload = .ok (automaton (ofLiteral bytes) payload) := by
  refine ⟨fun pattern h => ?_, fun bytes => ?_⟩
  · have hread : ofWildcard pattern = .ok (ofShell pattern) := by
      rw [ofWildcard_eq, Glob.ofWildcard_of_not_mem h, ofShell_eq]
      rfl
    refine ⟨hread, ?_, shell_automaton_eq pattern payload⟩
    rw [wildcard_automaton_eq, hread]
    rfl
  · have hread := ofWildcard_escaped bytes
    refine ⟨hread, ?_, ?_⟩
    · rw [wildcard_automaton_eq, hread]
      rfl
    · rw [automaton_ofLiteral]
      rfl

/-- The pattern `*a**b`, and the bytes `*\` escaped: `\*\\`. -/
theorem builders_agree_adjacent_stars :
    escapeByte ∉ ([42, 97, 42, 42, 98] : Bytes) ∧
      ofWildcard [42, 97, 42, 42, 98] = .ok [star, literal [97], star, star, literal [98]] ∧
      (Pattern.wildcard [42, 97, 42, 42, 98]).automaton 1 =
        (Pattern.shell [42, 97, 42, 42, 98]).automaton 1 ∧
      Glob.escaped [42, 92] = [92, 42, 92, 92] ∧
      ofWildcard [92, 42, 92, 92] = .ok [literal [42, 92]] ∧
      (Pattern.wildcard [92, 42, 92, 92]).automaton 1 = (Pattern.exactly [42, 92]).automaton 1 := by
  have hnone : escapeByte ∉ ([42, 97, 42, 42, 98] : Bytes) := by decide
  obtain ⟨hshell, hescaped⟩ := builders_agree (1 : Nat)
  obtain ⟨hread, hwildcard, hsame⟩ := hshell _ hnone
  obtain ⟨hread', hwildcard', hsame'⟩ := hescaped [42, 92]
  exact ⟨hnone, hread, hwildcard.trans hsame.symm, rfl, hread', hwildcard'.trans hsame'.symm⟩

end Segment

end ByteMatch
