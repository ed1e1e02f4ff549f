import ByteMatch.Proofs.MatcherLanguage
import ByteMatch.Proofs.ScanLanguage
import Mathlib.Data.List.TakeWhile

/-!
# Where scanning and the automaton agree

A pattern that can be scanned for can also be walked as an automaton. Both decide whether its glob
matches, and they part only over a terminator inside the value, which the scan takes for a byte like
any other:

* the automaton accepts where it has matched a beginning that a terminator in the value ends, be the
  rest as it may (`Glob.EndsEarly`);
* its stars do not read a terminator, the stars of the scan do.

Where neither of the two makes a difference (`Glob.Indifferent`) is exactly where they agree
(`LiteralScan.agrees_iff`). `Glob.accepts_iff_scan_takeWhile` says what the automaton really asks for if
the pattern has no terminator in it: the scan of the value cut at its first terminator.
-/

namespace ByteMatch

variable {α : Type} {pattern value : Bytes} {scan : LiteralScan}

/-! ### Values and their terminators -/

namespace Glob

/-- A glob without a terminator matches values without one, if its stars do not read it. -/
theorem not_mem_of_matches {glob : Glob} (hglob : Token.byte terminator ∉ glob)
    (h : Matches (· ≠ terminator) glob value) : terminator ∉ value := by
  induction glob generalizing value with
  | nil =>
    obtain rfl := matches_nil_iff.1 h
    exact List.not_mem_nil
  | cons token glob ih =>
    rw [List.mem_cons, not_or] at hglob
    obtain ⟨part, rest, rfl, hcovers, hrest⟩ := h
    rw [List.mem_append, not_or]
    -- neither a byte nor a star covers a terminator
    refine ⟨fun hmem => ?_, ih hglob.2 hrest⟩
    cases token with
    | byte b =>
      obtain rfl : part = [b] := hcovers
      exact hglob.1 (congrArg Token.byte (List.mem_singleton.1 hmem))
    | star => exact hcovers terminator hmem rfl

theorem byte_not_mem_ofShell (h : terminator ∉ pattern) :
    Token.byte terminator ∉ ofShell pattern := by
  intro hmem
  -- a byte of the glob is a byte of the pattern
  obtain ⟨b, hb, htoken⟩ := List.mem_map.1 hmem
  split at htoken
  · contradiction
  · obtain rfl := Token.byte.inj htoken
    exact h hb

/-- What stands before a terminator and has none in it is where the value is cut. -/
private theorem append_terminator_prefix_iff {part : Bytes} (hpart : terminator ∉ part) :
    part ++ [terminator] <+: symbols value ↔ part = value.takeWhile (· ≠ terminator) := by
  induction part generalizing value with
  | nil =>
    -- nothing stands before the terminator if it is the first byte that is read
    cases value with
    | nil => simp [symbols]
    | cons b value =>
      by_cases hb : b = terminator
      · simp [symbols, hb]
      · simp [symbols, hb, Ne.symm hb]
  | cons c part ih =>
    rw [List.mem_cons, not_or] at hpart
    cases value with
    | nil => simp [symbols, Ne.symm hpart.1]
    | cons b value =>
      have hcons : symbols (b :: value) = b :: symbols value := rfl
      rw [hcons, List.cons_append, List.cons_prefix_cons, ih hpart.2]
      by_cases hb : b = terminator
      · simp [hb, Ne.symm hpart.1]
      · simp [hb]

end Glob

/-! ### One pattern -/

/-- **What the automaton of a pattern without a terminator asks for** is that the scan matches the
value up to the first terminator in it. -/
theorem Glob.accepts_iff_scan_takeWhile (hscan : LiteralScan.ofPattern pattern = some scan)
    (hpattern : terminator ∉ pattern) :
    (ofShell pattern).Accepts value ↔
      scan.isMatch (value.takeWhile (· ≠ terminator)) = true := by
  have hcut : terminator ∉ value.takeWhile (· ≠ terminator) := by
    intro hmem
    simpa using List.mem_takeWhile_imp hmem
  rw [LiteralScan.isMatch_iff hscan, ← matches_iff_of_not_mem hcut]
  refine ⟨?_, ?_⟩
  · -- what is matched has no terminator in it, so it ends where the value is cut
    rintro ⟨part, hprefix, hbytes, hmatches⟩
    have hpart := not_mem_of_matches (byte_not_mem_ofShell hpattern) hmatches
    obtain rfl := (append_terminator_prefix_iff hpart).1 hprefix
    exact ⟨hbytes, hmatches⟩
  · rintro ⟨hbytes, hmatches⟩
    exact ⟨_, (append_terminator_prefix_iff hcut).2 rfl, hbytes, hmatches⟩

/-- **Terminators in the value make no difference**: a beginning that one of them ends is matched only
along with the whole value, and no star has to stand for one of them unless there is such a
beginning. -/
structure Glob.Indifferent (glob : Glob) (value : Bytes) : Prop where
  ends : glob.EndsEarly value → (∀ b ∈ value, InAlphabet b) ∧ glob.Matches (fun _ => True) value
  stars : (∀ b ∈ value, InAlphabet b) → glob.Matches (fun _ => True) value →
    glob.Matches (· ≠ terminator) value ∨ glob.EndsEarly value

theorem Glob.indifferent_of_not_mem {glob : Glob} (h : terminator ∉ value) :
    glob.Indifferent value where
  ends hends := absurd hends (not_endsEarly h)
  stars _ hmatches := .inl ((matches_iff_of_not_mem h).2 hmatches)

/-- **The scan says what the automaton accepts** just where terminators make no difference. -/
theorem LiteralScan.agrees_iff (hscan : ofPattern pattern = some scan) :
    (scan.isMatch value = true ↔ (Glob.ofShell pattern).Accepts value) ↔
      (Glob.ofShell pattern).Indifferent value := by
  have hweaken : (Glob.ofShell pattern).Matches (· ≠ terminator) value →
      (Glob.ofShell pattern).Matches (fun _ => True) value := Glob.Matches.imp fun _ _ _ => trivial
  rw [Glob.accepts_iff, isMatch_iff hscan]
  refine ⟨fun h => ⟨fun hends => h.2 (.inr hends), fun hbytes hmatches => ?_⟩, fun h => ⟨?_, ?_⟩⟩
  · exact (h.1 ⟨hbytes, hmatches⟩).imp_left And.right
  · -- what the scan matches is accepted
    rintro ⟨hbytes, hmatches⟩
    exact (h.stars hbytes hmatches).imp_left fun hmatches => ⟨hbytes, hmatches⟩
  · -- what is accepted the scan matches
    rintro (⟨hbytes, hmatches⟩ | hends)
    · exact ⟨hbytes, hweaken hmatches⟩
    · exact h.ends hends

/-! ### One of the additions to a matcher -/

private theorem Addition.finds_shell_iff (hscan : LiteralScan.ofPattern pattern = some scan)
    {payload x : α} :
    (Addition.pattern (.shell pattern) payload).Finds value x ↔
      x = payload ∧ scan.isMatch value = true := by
  have hfor : Matcher.scanFor? (.shell pattern) = some scan := hscan
  rw [Addition.Finds, hfor]

private theorem Addition.finds_automaton_iff {glob : Glob} {payload x : α} :
    (Addition.automaton (glob.automaton payload)).Finds value x ↔
      x = payload ∧ glob.Accepts value := by
  rw [Addition.Finds, Glob.exists_yields_automaton_iff]

/-- One addition finds what it finds wherever it stands among others. -/
theorem Addition.exists_finds_iff {before after : List (Addition α)} {addition : Addition α} {x : α} :
    (∃ other ∈ before ++ addition :: after, other.Finds value x) ↔
      (∃ other ∈ before ++ after, other.Finds value x) ∨ addition.Finds value x := by
  simp only [List.mem_append, List.mem_cons, or_and_right, exists_or, exists_eq_left]
  rw [or_assoc, or_comm (a := addition.Finds value x)]

/-- Whether one payload is found for this reason or for that does not show if it is found anyway. -/
private theorem forall_or_eq_iff {others : α → Prop} {payload : α} {this that : Prop} :
    (∀ x, (others x ∨ x = payload ∧ this) ↔ (others x ∨ x = payload ∧ that)) ↔
      (this ↔ that) ∨ others payload := by
  refine ⟨fun h => ?_, ?_⟩
  · -- for all other payloads the two reasons do not matter
    by_cases hothers : others payload
    · exact .inr hothers
    · left
      simpa [hothers] using h payload
  · rintro (h | h) x
    · rw [h]
    · by_cases hx : x = payload
      · simp [hx, h]
      · simp [hx]

section Agreement

variable [DecidableEq α]

/-- A walk finds something if the value is accepted. -/
theorem Glob.traverse_ne_nil_iff {glob : Glob} {payload : α} {threshold : Nat} {found : List α}
    (h : (glob.automaton payload).traverse threshold value [] = .ok found) :
    found ≠ [] ↔ glob.Accepts value := by
  have hmem : ∀ x, x ∈ found ↔ x = payload ∧ glob.Accepts value := by
    intro x
    rw [mem_traverse_automaton_iff h]
    simp
  refine ⟨fun hne => ?_, fun haccepts => ?_⟩
  · obtain ⟨x, hx⟩ := List.exists_mem_of_ne_nil found hne
    exact ((hmem x).1 hx).2
  · exact List.ne_nil_of_mem ((hmem payload).2 ⟨rfl, haccepts⟩)

/-- A matcher with a pattern to scan for and one with the automaton of the pattern find the same, if
terminators make no difference or other reasons make the payload found. -/
theorem Matcher.Built.interchange_iff {published : Publications α}
    {before after : List (Addition α)} {matcher matcher' : Matcher α} {payload : α}
    (hscan : LiteralScan.ofPattern pattern = some scan)
    (h : Built (before ++ .pattern (.shell pattern) payload :: after) matcher)
    (h' : Built (before ++ .automaton ((Glob.ofShell pattern).automaton payload) :: after) matcher')
    (hmatcher : matcher.snapshot.PublishedIn published)
    (hmatcher' : matcher'.snapshot.PublishedIn published) {ctx ctx' : Context α}
    (hctx : ctx.Reachable published) (hctx' : ctx'.Reachable published) (incoming : List α) :
    ∃ found last found' last', matcher.matchValue ctx value incoming = .ok (found, last) ∧
      matcher'.matchValue ctx' value incoming = .ok (found', last') ∧
      ((∀ x, x ∈ found ↔ x ∈ found') ↔ (Glob.ofShell pattern).Indifferent value ∨
        payload ∈ incoming ∨ ∃ other ∈ before ++ after, other.Finds value payload) := by
  obtain ⟨found, last, hfound, -, -, hmem⟩ := h.matchValue_spec hmatcher hctx value incoming
  obtain ⟨found', last', hfound', -, -, hmem'⟩ := h'.matchValue_spec hmatcher' hctx' value incoming
  refine ⟨found, last, found', last', hfound, hfound', ?_⟩
  -- the two matchers differ in the one addition, which finds the payload or nothing
  simp only [hmem, hmem', Addition.exists_finds_iff, Addition.finds_shell_iff hscan,
    Addition.finds_automaton_iff, ← or_assoc]
  rw [forall_or_eq_iff, LiteralScan.agrees_iff hscan, or_assoc]

/-- **Scanning and the automaton agree but for terminators in the value.** The scan of a pattern and a
walk through its automaton agree just on the values in which terminators make no difference, as they
do if there are none; and if the pattern has no terminator, the walk finds what the scan finds in the
value up to its first one.

Matchers, too, find the same just in these values, whether they scan for the pattern or have united
its automaton, unless the payload comes in or other additions find it. -/
theorem scan_agrees_but_for_terminators (hscan : LiteralScan.ofPattern pattern = some scan)
    (value : Bytes) :
    (∀ (payload : α) (threshold : Nat), ∃ found,
      ((Glob.ofShell pattern).automaton payload).traverse threshold value [] = .ok found ∧
        ((scan.isMatch value = true ↔ found ≠ []) ↔ (Glob.ofShell pattern).Indifferent value) ∧
        (terminator ∉ pattern →
          (found ≠ [] ↔ scan.isMatch (value.takeWhile (· ≠ terminator)) = true))) ∧
    (terminator ∉ value → (Glob.ofShell pattern).Indifferent value) ∧
    ∀ (published : Publications α) (before after : List (Addition α)) (payload : α)
      (matcher matcher' : Matcher α) (ctx ctx' : Context α) (incoming : List α),
      Matcher.Built (before ++ .pattern (.shell pattern) payload :: after) matcher →
      Matcher.Built (before ++ .automaton ((Glob.ofShell pattern).automaton payload) :: after)
        matcher' →
      matcher.snapshot.PublishedIn published → matcher'.snapshot.PublishedIn published →
      ctx.Reachable published → ctx'.Reachable published →
      ∃ found last found' last', matcher.matchValue ctx value incoming = .ok (found, last) ∧
        matcher'.matchValue ctx' value incoming = .ok (found', last') ∧
        ((∀ x, x ∈ found ↔ x ∈ found') ↔ (Glob.ofShell pattern).Indifferent value ∨
          payload ∈ incoming ∨ ∃ other ∈ before ++ after, other.Finds value payload) := by
  refine ⟨fun payload threshold => ?_, Glob.indifferent_of_not_mem, ?_⟩
  · -- one pattern: both sides are read off what the glob matches
    obtain ⟨found, hfound⟩ := Automaton.traverse_isOk
      (Glob.stepsInside_automaton (Glob.ofShell pattern) payload) threshold value []
    have haccepts : found ≠ [] ↔ (Glob.ofShell pattern).Accepts value :=
      Glob.traverse_ne_nil_iff hfound
    refine ⟨found, hfound, ?_, fun hpattern => ?_⟩
    · rw [haccepts]
      exact LiteralScan.agrees_iff hscan
    · rw [haccepts]
      exact Glob.accepts_iff_scan_takeWhile hscan hpattern
  · intro published before after payload matcher matcher' ctx ctx' incoming h h' hmatcher hmatcher'
      hctx hctx'
    exact h.interchange_iff hscan h' hmatcher hmatcher' hctx hctx' incoming

/-- The pattern `*a`, walked and scanned for, and two matchers that hold it. -/
theorem scan_agrees_but_for_terminators_star :
    let scan : LiteralScan := ⟨[[97]], true, false⟩
    let fa : Automaton Nat := (Glob.ofShell [42, 97]).automaton 1
    let scanning : Matcher Nat := (Matcher.empty 0).addScan scan 1
    let uniting : Matcher Nat := (Matcher.empty 1).addAutomaton 2 fa
    let published : Publications Nat := fun id =>
      if id = 0 then some scanning.snapshot else if id = 2 then some uniting.snapshot else none
    LiteralScan.ofPattern [42, 97] = some scan ∧
      (∃ found, fa.traverse 500 [120, 97] [] = .ok found ∧
        (scan.isMatch [120, 97] = true ↔ found ≠ [])) ∧
      Matcher.Built [.pattern (.shell [42, 97]) 1] scanning ∧
      Matcher.Built [.automaton fa] uniting ∧
      scanning.snapshot.PublishedIn published ∧ uniting.snapshot.PublishedIn published ∧
      ∃ found last found' last',
        scanning.matchValue (Context.ofConfig Config.default) [120, 97] [7] = .ok (found, last) ∧
        uniting.matchValue (Context.ofConfig Config.default) [120, 97] [7] = .ok (found', last') ∧
        ∀ x, x ∈ found ↔ x ∈ found' := by
  intro scan fa scanning uniting published
  have hscan : LiteralScan.ofPattern [42, 97] = some scan := by decide
  have hvalue : terminator ∉ ([120, 97] : Bytes) := by decide
  have hscanning : Matcher.Built [.pattern (.shell [42, 97]) 1] scanning :=
    .pattern 0 (.shell [42, 97]) 1 (.empty 0) rfl
  have huniting : Matcher.Built [.automaton fa] uniting :=
    .automaton 2 fa (.empty 1) (Glob.stepsInside_automaton _ 1)
  obtain ⟨hwalk, hindifferent, hmatchers⟩ :=
    scan_agrees_but_for_terminators (α := Nat) hscan [120, 97]
  obtain ⟨found, hfound, hagrees, -⟩ := hwalk 1 500
  obtain ⟨part, last, part', last', hpart, hpart', hsame⟩ :=
    hmatchers published [] [] 1 scanning uniting _ _ [7] hscanning huniting rfl rfl
      (.fresh Config.default) (.fresh Config.default)
  exact ⟨hscan, ⟨found, hfound, hagrees.2 (hindifferent hvalue)⟩, hscanning, huniting, rfl, rfl,
    part, last, part', last', hpart, hpart', hsame.2 (.inl (hindifferent hvalue))⟩

/-- **A terminator in the value parts them.** The automaton of `a` has matched when it comes to a
terminator behind an `a`; the scan goes on to the end of the value and does not match. -/
theorem scan_disagrees_on_terminator :
    ¬ ∀ (pattern : Bytes) (scan : LiteralScan) (payload : Nat) (value : Bytes) (found : List Nat),
      LiteralScan.ofPattern pattern = some scan →
      ((Glob.ofShell pattern).automaton payload).traverse 500 value [] = .ok found →
      (scan.isMatch value = true ↔ found ≠ []) := by
  intro h
  have hwalk : ((Glob.ofShell [97]).automaton 1).traverse 500 [97, terminator] [] = .ok [1] := by
    decide +kernel
  have hscan := h [97] ⟨[[97]], false, false⟩ 1 [97, terminator] [1] (by decide) hwalk
  exact absurd (hscan.2 (List.cons_ne_nil _ _)) (by decide)

end Agreement

end ByteMatch
