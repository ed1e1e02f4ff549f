import ByteMatch.Pattern.LiteralScan
import ByteMatch.Proofs.GlobLanguage
import Mathlib.Data.List.Infix

/-!
# Scanning decides what a glob matches

A pattern cut at its stars is a first literal and further ones, each with a star before it. Said of
the literals, a value matches if it begins with the first of them and the others follow, each somewhere
behind the one before it, the last of them at the end (`LiteralScan.Follow`).

* `LiteralScan.floating_iff`: taking every literal where it comes first decides whether the literals
  follow. What is left behind the first place contains what is left behind any other
  (`LiteralScan.afterFirst_of_append`), and more room does no harm to literals with a star before them
  (`LiteralScan.Follow.append_left`).
* `LiteralScan.follow_filter_iff`: empty literals may be left out, if it is remembered that the last
  one was empty.
* `LiteralScan.finds_iff`, `LiteralScan.isMatch_iff`: so the scan of a pattern finds what its glob
  matches.
-/

namespace ByteMatch

namespace LiteralScan

variable {literal value rest : Bytes} {literals : List Bytes} {endsWild : Bool}

/-! ### The first place of a literal -/

/-- What follows a literal somewhere in the value is part of what follows its first place. -/
theorem afterFirst_of_append (skipped : Bytes) (h : value = skipped ++ literal ++ rest) :
    ∃ after, afterFirst literal value = some after ∧ rest <:+ after := by
  induction skipped generalizing value with
  | nil =>
    subst h
    have hprefix : literal.isPrefixOf (literal ++ rest) = true := by simp
    refine ⟨rest, ?_, List.suffix_rfl⟩
    rw [List.nil_append, afterFirst.eq_def, if_pos hprefix, List.drop_left]
  | cons b skipped ih =>
    rw [List.cons_append, List.cons_append] at h
    subst h
    rw [afterFirst.eq_def]
    split
    · -- the literal stands at the very beginning as well
      next hprefix =>
      refine ⟨_, rfl, List.suffix_of_suffix_length_le ⟨b :: (skipped ++ literal), by simp⟩
        (List.drop_suffix _ _) ?_⟩
      simp only [List.length_drop, List.length_cons, List.length_append]
      omega
    · exact ih rfl

theorem append_of_afterFirst {after : Bytes} (h : afterFirst literal value = some after) :
    ∃ skipped, value = skipped ++ literal ++ after := by
  induction value with
  | nil =>
    rw [afterFirst.eq_def] at h
    split at h
    · next hprefix =>
      obtain rfl := Option.some.inj h
      exact ⟨[], (List.prefix_iff_eq_append.1 (List.isPrefixOf_iff_prefix.1 hprefix)).symm⟩
    · contradiction
  | cons b value ih =>
    rw [afterFirst.eq_def] at h
    split at h
    · next hprefix =>
      obtain rfl := Option.some.inj h
      exact ⟨[], (List.prefix_iff_eq_append.1 (List.isPrefixOf_iff_prefix.1 hprefix)).symm⟩
    · obtain ⟨skipped, rfl⟩ := ih h
      exact ⟨b :: skipped, rfl⟩

/-! ### Literals that follow each other -/

/-- **The literals follow each other in the value**, with anything before each of them; behind the
last one there is nothing, unless `endsWild`. -/
def Follow (endsWild : Bool) : List Bytes → Bytes → Prop
  | [], value => endsWild = true ∨ value = []
  | literal :: literals, value =>
    ∃ skipped rest, value = skipped ++ literal ++ rest ∧ Follow endsWild literals rest

/-- More room in front does no harm to what a star comes before. -/
theorem Follow.append_left (hwild : endsWild = true ∨ literals ≠ []) (more : Bytes)
    (h : Follow endsWild literals value) : Follow endsWild literals (more ++ value) := by
  cases literals with
  | nil => exact .inl (hwild.resolve_right fun hne => hne rfl)
  | cons literal literals =>
    obtain ⟨skipped, rest, rfl, hrest⟩ := h
    exact ⟨more ++ skipped, rest, by simp only [List.append_assoc], hrest⟩

/-- **Taking the first place decides.** -/
theorem follow_cons_iff_afterFirst (hwild : endsWild = true ∨ literals ≠ []) :
    Follow endsWild (literal :: literals) value ↔
      ∃ after, afterFirst literal value = some after ∧ Follow endsWild literals after := by
  refine ⟨?_, ?_⟩
  · -- from another place to the first one the literals behind gain room
    rintro ⟨skipped, rest, heq, hrest⟩
    obtain ⟨after, hafter, more, rfl⟩ := afterFirst_of_append skipped heq
    exact ⟨more ++ rest, hafter, hrest.append_left hwild more⟩
  · rintro ⟨after, hafter, hrest⟩
    obtain ⟨skipped, heq⟩ := append_of_afterFirst hafter
    exact ⟨skipped, after, heq, hrest⟩

/-- The scan decides whether the literals follow each other. -/
theorem floating_iff : floating endsWild literals value = true ↔ Follow endsWild literals value := by
  induction literals generalizing value with
  | nil => simp [floating, Follow]
  | cons literal literals ih =>
    cases literals with
    | nil =>
      -- the last literal: behind a star it may stand anywhere, else at the end
      cases endsWild with
      | true =>
        rw [follow_cons_iff_afterFirst (.inl rfl), floating, if_pos rfl, Option.isSome_iff_exists]
        simp [Follow]
      | false =>
        have hfloating : floating false [literal] value = literal.isSuffixOf value := rfl
        rw [hfloating, List.isSuffixOf_iff_suffix]
        simp only [Follow, Bool.false_eq_true, false_or, List.append_assoc, exists_eq_right,
          List.append_nil]
        exact exists_congr fun skipped => eq_comm
    | cons second literals =>
      rw [follow_cons_iff_afterFirst (.inr (List.cons_ne_nil _ _)), floating.eq_def]
      cases hafter : afterFirst literal value with
      | none => simp [hafter]
      | some after => simp [hafter, ih]

/-- Literals that follow each other fit into the value. -/
theorem Follow.length_le (h : Follow endsWild literals value) :
    literals.flatten.length ≤ value.length := by
  induction literals generalizing value with
  | nil => exact Nat.zero_le _
  | cons literal literals ih =>
    obtain ⟨skipped, rest, rfl, hrest⟩ := h
    have hle := ih hrest
    simp only [List.flatten_cons, List.length_append]
    omega

/-! ### Empty literals -/

private theorem filter_nil_cons (literals : List Bytes) :
    ([] :: literals).filter (! ·.isEmpty) = literals.filter (! ·.isEmpty) := rfl

private theorem filter_cons_cons (b : UInt8) (literal : Bytes) (literals : List Bytes) :
    ((b :: literal) :: literals).filter (! ·.isEmpty) =
      (b :: literal) :: literals.filter (! ·.isEmpty) := rfl

/-- **Empty literals may be left out**, but that the last of them was empty has to be remembered. -/
theorem follow_filter_iff (literals : List Bytes) (value : Bytes) :
    Follow false literals value ↔
      Follow (literals.getLast? == some []) (literals.filter (! ·.isEmpty)) value := by
  induction literals generalizing value with
  | nil => simp [Follow]
  | cons literal literals ih =>
    cases literal with
    | nil =>
      rw [filter_nil_cons, Follow]
      simp only [ih, List.append_nil]
      cases literals with
      | nil => simp [Follow]
      | cons second literals =>
        rw [List.getLast?_cons_cons]
        -- if all of the others are empty, the last of them is
        have hwild : ((second :: literals).getLast? == some []) = true ∨
            (second :: literals).filter (! ·.isEmpty) ≠ [] := by
          rw [or_iff_not_imp_right, not_not, List.filter_eq_nil_iff]
          intro hempty
          have hlast := hempty _ (List.getLast_mem (List.cons_ne_nil second literals))
          rw [List.getLast?_eq_some_getLast (List.cons_ne_nil second literals)]
          simpa using hlast
        refine ⟨?_, ?_⟩
        · rintro ⟨skipped, rest, rfl, hrest⟩
          exact hrest.append_left hwild skipped
        · exact fun h => ⟨[], value, rfl, h⟩
    | cons b literal =>
      -- a literal that stays is not an empty last one
      have hlast : (((b :: literal) :: literals).getLast? == some []) =
          (literals.getLast? == some []) := by
        cases literals with
        | nil => rfl
        | cons second literals => rw [List.getLast?_cons_cons]
      rw [filter_cons_cons, hlast, Follow, Follow]
      simp only [ih]

/-! ### Patterns cut at their stars -/

theorem segments_ne_nil (pattern : Bytes) : segments pattern ≠ [] := by
  cases pattern with
  | nil => exact List.cons_ne_nil _ _
  | cons b pattern =>
    rw [segments]
    split
    · exact List.cons_ne_nil _ _
    · split <;> exact List.cons_ne_nil _ _

theorem segments_star (pattern : Bytes) :
    segments (starByte :: pattern) = [] :: segments pattern := by
  rw [segments, if_pos rfl]

theorem segments_byte {b : UInt8} (hb : b ≠ starByte) {pattern first : Bytes}
    {others : List Bytes} (h : segments pattern = first :: others) :
    segments (b :: pattern) = (b :: first) :: others := by
  rw [segments, if_neg hb, h]

/-- **The segments say what the glob matches.** -/
theorem matches_ofShell_iff {pattern first : Bytes} {others : List Bytes}
    (h : segments pattern = first :: others) :
    (Glob.ofShell pattern).Matches (fun _ => True) value ↔
      ∃ rest, value = first ++ rest ∧ Follow false others rest := by
  induction pattern generalizing first others value with
  | nil =>
    obtain ⟨rfl, rfl⟩ := List.cons.inj (show [[]] = first :: others from h)
    simp [Glob.ofShell, Glob.matches_nil_iff, Follow]
  | cons b pattern ih =>
    obtain ⟨first', others', hsegments⟩ := List.exists_cons_of_ne_nil (segments_ne_nil pattern)
    by_cases hb : b = starByte
    · -- the first segment ends before it begins, and the star comes before the next one
      subst hb
      rw [segments_star, hsegments] at h
      obtain ⟨rfl, rfl⟩ := List.cons.inj h
      have htokens : Glob.ofShell (starByte :: pattern) = .star :: Glob.ofShell pattern := rfl
      rw [htokens, Glob.matches_star_iff]
      simp only [ih hsegments, Follow, implies_true, true_and, List.nil_append, exists_eq_left']
      refine ⟨?_, ?_⟩
      · rintro ⟨skipped, _, rfl, rest, rfl, hrest⟩
        exact ⟨skipped, rest, (List.append_assoc _ _ _).symm, hrest⟩
      · rintro ⟨skipped, rest, rfl, hrest⟩
        exact ⟨skipped, _, List.append_assoc _ _ _, rest, rfl, hrest⟩
    · -- the byte belongs to the first segment
      rw [segments_byte hb hsegments] at h
      obtain ⟨rfl, rfl⟩ := List.cons.inj h
      have htokens : Glob.ofShell (b :: pattern) = .byte b :: Glob.ofShell pattern := by
        rw [Glob.ofShell, List.map_cons, if_neg hb, Glob.ofShell]
      rw [htokens, Glob.matches_byte_iff]
      simp only [ih hsegments]
      refine ⟨?_, ?_⟩
      · rintro ⟨_, rfl, rest, rfl, hrest⟩
        exact ⟨rest, rfl, hrest⟩
      · rintro ⟨rest, rfl, hrest⟩
        exact ⟨_, rfl, rest, rfl, hrest⟩

/-- A pattern of one segment has no star. -/
private theorem eq_of_segments_singleton {pattern first : Bytes} (h : segments pattern = [first]) :
    first = pattern := by
  induction pattern generalizing first with
  | nil => exact (List.cons.inj (show [[]] = [first] from h)).1.symm
  | cons b pattern ih =>
    obtain ⟨first', others', hsegments⟩ := List.exists_cons_of_ne_nil (segments_ne_nil pattern)
    by_cases hb : b = starByte
    · subst hb
      rw [segments_star, hsegments] at h
      exact absurd (List.cons.inj h).2 (List.cons_ne_nil _ _)
    · rw [segments_byte hb hsegments] at h
      obtain ⟨rfl, rfl⟩ := List.cons.inj h
      rw [ih hsegments]

/-- The first segment is empty if the pattern is or if it begins with a star. -/
theorem head?_eq_star_iff {pattern first : Bytes} {others : List Bytes} (hne : pattern ≠ [])
    (h : segments pattern = first :: others) : pattern.head? = some starByte ↔ first = [] := by
  obtain ⟨b, pattern, rfl⟩ := List.exists_cons_of_ne_nil hne
  obtain ⟨first', others', hsegments⟩ := List.exists_cons_of_ne_nil (segments_ne_nil pattern)
  by_cases hb : b = starByte
  · subst hb
    rw [segments_star] at h
    simp [(List.cons.inj h).1]
  · rw [segments_byte hb hsegments] at h
    simp [← (List.cons.inj h).1, hb]

/-- The last of the further segments is empty if the pattern ends with a star. -/
theorem getLast?_eq_star_iff {pattern first : Bytes} {others : List Bytes}
    (h : segments pattern = first :: others) :
    pattern.getLast? = some starByte ↔ others.getLast? = some [] := by
  induction pattern generalizing first others with
  | nil =>
    obtain ⟨-, rfl⟩ := List.cons.inj (show [[]] = first :: others from h)
    simp
  | cons b pattern ih =>
    obtain ⟨first', others', hsegments⟩ := List.exists_cons_of_ne_nil (segments_ne_nil pattern)
    have ih := ih hsegments
    by_cases hb : b = starByte
    · subst hb
      rw [segments_star, hsegments] at h
      obtain ⟨-, rfl⟩ := List.cons.inj h
      cases others' with
      | nil =>
        -- no star in the rest: it is its own only segment
        obtain rfl := eq_of_segments_singleton hsegments
        cases first' with
        | nil => simp
        | cons c rest => simpa [List.getLast?_cons_cons] using ih
      | cons second others' =>
        have hrest : pattern ≠ [] := by
          rintro rfl
          exact absurd (List.cons.inj (show [[]] = first' :: second :: others' from hsegments)).2
            (List.cons_ne_nil _ _).symm
        obtain ⟨c, rest, rfl⟩ := List.exists_cons_of_ne_nil hrest
        rw [List.getLast?_cons_cons, List.getLast?_cons_cons, ih]
    · rw [segments_byte hb hsegments] at h
      obtain ⟨-, rfl⟩ := List.cons.inj h
      cases pattern with
      | nil =>
        obtain ⟨-, rfl⟩ := List.cons.inj (show [[]] = first' :: others' from hsegments)
        simp [hb]
      | cons c rest => rw [List.getLast?_cons_cons, ih]

/-! ### Scans -/

variable {scan : LiteralScan} {pattern : Bytes}

/-- What a scan finds is no shorter than its literals together. -/
theorem minLength_le_of_finds (h : scan.finds value = true) : scan.minLength ≤ value.length := by
  unfold finds at h
  split at h
  · exact (floating_iff.1 h).length_le
  · unfold minLength
    split at h
    · next hliterals =>
      rw [hliterals]
      exact Nat.zero_le _
    · next first others hliterals =>
      rw [Bool.and_eq_true, List.isPrefixOf_iff_prefix] at h
      obtain ⟨⟨rest, rfl⟩, hfloating⟩ := h
      rw [List.drop_left] at hfloating
      have hle := (floating_iff.1 hfloating).length_le
      rw [hliterals, List.flatten_cons, List.length_append, List.length_append]
      omega

/-- The shortcut for short values changes nothing. -/
theorem isMatch_iff_finds :
    scan.isMatch value = true ↔ (∀ b ∈ value, InAlphabet b) ∧ scan.finds value = true := by
  have hshort : scan.finds value = true → ¬ value.length < scan.minLength :=
    fun h => Nat.not_lt.2 (minLength_le_of_finds h)
  unfold isMatch
  split
  · -- refused: the value is too short or holds a byte that is not read
    next hout =>
    simp only [Bool.or_eq_true, decide_eq_true_eq, List.any_eq_true, Bool.not_eq_true',
      decide_eq_false_iff_not] at hout
    simp only [Bool.false_eq_true, false_iff, not_and]
    rcases hout with hlt | ⟨b, hb, hout⟩
    · exact fun _ h => hshort h hlt
    · exact fun hall => absurd (hall b hb) hout
  · next hin =>
    simp only [Bool.or_eq_true, decide_eq_true_eq, List.any_eq_true, Bool.not_eq_true',
      decide_eq_false_iff_not, not_or, not_exists, not_and, not_not] at hin
    exact (and_iff_right hin.2).symm

/-- The fields of the scan for a pattern, by its segments. -/
theorem ofPattern_eq {first : Bytes} {others : List Bytes} (h : ofPattern pattern = some scan)
    (hsegments : segments pattern = first :: others) :
    scan.literals = (first :: others).filter (! ·.isEmpty) ∧ scan.startsWild = first.isEmpty ∧
      scan.endsWild = (others.getLast? == some []) := by
  unfold ofPattern at h
  split at h
  · contradiction
  · next hok =>
    have hne : pattern ≠ [] := by
      rintro rfl
      simp at hok
    obtain rfl := Option.some.inj h
    have hstarts := head?_eq_star_iff hne hsegments
    have hends := getLast?_eq_star_iff hsegments
    refine ⟨by rw [hsegments], ?_, ?_⟩
    · rw [hsegments, Bool.eq_iff_iff, Bool.or_eq_true, beq_iff_eq, hstarts, List.isEmpty_iff,
        List.isEmpty_iff, or_iff_right_iff_imp]
      -- without literals the first segment is empty, too
      intro hempty
      simpa using List.filter_eq_nil_iff.1 hempty first List.mem_cons_self
    · rw [hsegments, Bool.eq_iff_iff, Bool.or_eq_true, beq_iff_eq, beq_iff_eq, hends,
        List.isEmpty_iff, or_iff_right_iff_imp]
      intro hempty
      -- without literals all segments are empty, the last of them as well
      have hall : ∀ segment ∈ first :: others, segment = [] := by
        simpa using List.filter_eq_nil_iff.1 hempty
      cases others with
      | nil =>
        -- a single empty segment is that of the empty pattern
        obtain rfl := hall first List.mem_cons_self
        exact absurd (eq_of_segments_singleton hsegments).symm hne
      | cons second others =>
        have hlast := List.getLast_mem (List.cons_ne_nil second others)
        rw [List.getLast?_eq_some_getLast (List.cons_ne_nil second others),
          hall _ (List.mem_cons_of_mem _ hlast)]

/-- **The scan for a pattern finds what its glob matches.** -/
theorem finds_iff (h : ofPattern pattern = some scan) :
    scan.finds value = true ↔ (Glob.ofShell pattern).Matches (fun _ => True) value := by
  obtain ⟨first, others, hsegments⟩ := List.exists_cons_of_ne_nil (segments_ne_nil pattern)
  obtain ⟨hliterals, hstarts, hends⟩ := ofPattern_eq h hsegments
  rw [matches_ofShell_iff hsegments, finds, hliterals, hstarts, hends]
  simp only [follow_filter_iff others]
  cases first with
  | nil =>
    -- nothing has to stand at the very beginning
    rw [List.isEmpty_nil, if_pos rfl, filter_nil_cons, floating_iff]
    simp only [List.nil_append, exists_eq_left']
  | cons b first =>
    rw [filter_cons_cons]
    simp only [List.isEmpty_cons, Bool.false_eq_true, if_false, Bool.and_eq_true,
      List.isPrefixOf_iff_prefix, floating_iff]
    refine ⟨?_, ?_⟩
    · rintro ⟨⟨rest, rfl⟩, hfollow⟩
      rw [List.drop_left] at hfollow
      exact ⟨rest, rfl, hfollow⟩
    · rintro ⟨rest, rfl, hfollow⟩
      rw [List.drop_left]
      exact ⟨List.prefix_append _ _, hfollow⟩

/-- **Scanning is exact.** A value matches if all of its bytes can be read and the glob matches it,
stars standing for any bytes. -/
theorem isMatch_iff (h : ofPattern pattern = some scan) :
    scan.isMatch value = true ↔
      (∀ b ∈ value, InAlphabet b) ∧ (Glob.ofShell pattern).Matches (fun _ => True) value := by
  rw [isMatch_iff_finds, finds_iff h]

end LiteralScan

end ByteMatch
