import ByteMatch.Pattern.LiteralSearch
import ByteMatch.Proofs.Expansions
import ByteMatch.Proofs.ScanLanguage

/-!
# Scanning is exact, whichever way the literals are found

A scan takes every literal where it comes first and never tries another place. That this decides
whether the pattern expands to the value is `LiteralScan.isMatch_iff_expandsTo`: the language of the
scan, as `ScanLanguage` has it, said of the bytes of the pattern.

It remains true when the literals are looked for by a routine of which only the outcome is known:

* `LiteralScan.afterFirst_eq`: what follows the first place of a literal is what follows the place that
  such a routine finds. There is one first place, and both are it.
* `LiteralScan.floatingBy_eq`: so a position in the value is as good as the rest of it.
* `LiteralScan.isMatchBy_eq`, `scanning_is_exact`: the two scans are one.
-/

namespace ByteMatch

variable {find : Finder} {literal value pattern : Bytes} {scan : LiteralScan}

/-! ### A finder -/

namespace Finder

private theorem plain_cons (literal : Bytes) (b : UInt8) (rest : Bytes) :
    plain literal (b :: rest) =
      if literal.isPrefixOf (b :: rest) then some 0 else (plain literal rest).map (· + 1) := rfl

/-- Trying one place after the other finds the first. -/
theorem findsFirst_plain : FindsFirst plain where
  stands {literal value place} h := by
    induction value generalizing place with
    | nil =>
      unfold plain at h
      split at h
      · next hempty =>
        rw [List.isEmpty_iff.1 hempty]
        exact List.nil_prefix
      · contradiction
    | cons b rest ih =>
      rw [plain_cons] at h
      split at h
      · next hprefix =>
        obtain rfl := Option.some.inj h
        exact List.isPrefixOf_iff_prefix.1 hprefix
      · -- the place is one further than in the rest
        obtain ⟨place, hplace, rfl⟩ := Option.map_eq_some_iff.1 h
        exact ih hplace
  first {literal value place} h := by
    induction value generalizing place with
    | nil =>
      unfold plain at h
      split at h
      · obtain rfl := Option.some.inj h
        exact fun earlier hlt => absurd hlt (Nat.not_lt_zero _)
      · contradiction
    | cons b rest ih =>
      rw [plain_cons] at h
      split at h
      · obtain rfl := Option.some.inj h
        exact fun earlier hlt => absurd hlt (Nat.not_lt_zero _)
      · next hprefix =>
        obtain ⟨place, hplace, rfl⟩ := Option.map_eq_some_iff.1 h
        intro earlier hlt
        cases earlier with
        | zero => exact fun hstands => hprefix (List.isPrefixOf_iff_prefix.2 hstands)
        | succ earlier => exact ih hplace earlier (Nat.lt_of_succ_lt_succ hlt)
  nowhere {literal value} h := by
    induction value with
    | nil =>
      unfold plain at h
      split at h
      · contradiction
      · next hne =>
        intro place hstands
        rw [List.drop_nil, List.prefix_nil] at hstands
        exact hne (List.isEmpty_iff.2 hstands)
    | cons b rest ih =>
      rw [plain_cons] at h
      split at h
      · contradiction
      · next hprefix =>
        intro place
        cases place with
        | zero => exact fun hstands => hprefix (List.isPrefixOf_iff_prefix.2 hstands)
        | succ place => exact ih (Option.map_eq_none_iff.1 h) place

end Finder

/-! ### One pass with a finder -/

namespace LiteralScan

/-- A literal with something before it stands behind that. -/
private theorem prefix_drop_of_append {skipped after : Bytes}
    (h : value = skipped ++ literal ++ after) : literal <+: value.drop skipped.length := by
  rw [h, List.append_assoc, List.drop_left]
  exact List.prefix_append _ _

/-- **What follows the first place of a literal** is what follows the place that is found. -/
theorem afterFirst_eq (hfind : find.FindsFirst) (literal value : Bytes) :
    afterFirst literal value =
      (find literal value).map fun place => value.drop (place + literal.length) := by
  cases hplace : find literal value with
  | none =>
    cases hafter : afterFirst literal value with
    | none => rfl
    | some after =>
      obtain ⟨skipped, heq⟩ := append_of_afterFirst hafter
      exact absurd (prefix_drop_of_append heq) (hfind.nowhere hplace _)
  | some place =>
    obtain ⟨rest, hrest⟩ := hfind.stands hplace
    have hvalue : value = value.take place ++ literal ++ rest := by
      rw [List.append_assoc, hrest, List.take_append_drop]
    obtain ⟨after, hafter, hsuffix⟩ := afterFirst_of_append (value.take place) hvalue
    obtain ⟨skipped, heq⟩ := append_of_afterFirst hafter
    -- the place found is the first one, and behind the first one there is most
    have hle : place ≤ skipped.length :=
      Nat.le_of_not_lt fun hlt => hfind.first hplace _ hlt (prefix_drop_of_append heq)
    have hge : skipped.length ≤ place := by
      have hlength := congrArg List.length (heq.symm.trans hvalue)
      have hmore := hsuffix.length_le
      simp only [List.length_append, List.length_take] at hlength
      omega
    have hplaces : place + literal.length = (skipped ++ literal).length := by
      rw [List.length_append, Nat.le_antisymm hle hge]
    rw [hafter, Option.map_some, hplaces]
    conv => rhs; rw [heq]
    rw [List.drop_left]

private theorem floating_cons_cons (endsWild : Bool) (literal second : Bytes)
    (literals : List Bytes) (value : Bytes) :
    floating endsWild (literal :: second :: literals) value =
      match afterFirst literal value with
      | none => false
      | some after => floating endsWild (second :: literals) after := rfl

/-- A literal that is not the last is found, and the others from behind it on. -/
private theorem floatingBy_cons_cons (find : Finder) (endsWild : Bool)
    (value literal second : Bytes) (literals : List Bytes) (position : Nat) :
    floatingBy find endsWild value (literal :: second :: literals) position =
      match find literal (value.drop position) with
      | none => false
      | some place =>
        floatingBy find endsWild value (second :: literals) (position + place + literal.length) := by
  unfold floatingBy
  rw [List.getLast?_cons_cons, List.dropLast_cons_cons,
    List.getLast?_eq_some_getLast (List.cons_ne_nil second literals)]
  simp only [behindAll]
  cases find literal (value.drop position) with
  | none => rfl
  | some place => rfl

/-- **A position in the value does for the rest of it.** -/
theorem floatingBy_eq (hfind : find.FindsFirst) (endsWild : Bool) (value : Bytes)
    {literals : List Bytes} (hne : literals ≠ []) (position : Nat) :
    floatingBy find endsWild value literals position =
      floating endsWild literals (value.drop position) := by
  induction literals generalizing position with
  | nil => exact absurd rfl hne
  | cons literal literals ih =>
    cases literals with
    | nil =>
      -- the last literal is looked for, or has to stand at the end
      show (if endsWild then (find literal (value.drop position)).isSome
        else literal.isSuffixOf (value.drop position)) =
          if endsWild then (afterFirst literal (value.drop position)).isSome
          else literal.isSuffixOf (value.drop position)
      rw [afterFirst_eq hfind, Option.isSome_map]
    | cons second literals =>
      rw [floatingBy_cons_cons, floating_cons_cons, afterFirst_eq hfind]
      cases find literal (value.drop position) with
      | none => rfl
      | some place =>
        -- both go on behind the literal
        show floatingBy find endsWild value (second :: literals) (position + place + literal.length) =
          floating endsWild (second :: literals) ((value.drop position).drop (place + literal.length))
        rw [ih (List.cons_ne_nil _ _), List.drop_drop, Nat.add_assoc]

/-- A scan without literals is that of a pattern of stars. -/
private theorem wild_of_literals_eq_nil (hscan : ofPattern pattern = some scan)
    (hliterals : scan.literals = []) : scan.startsWild = true ∧ scan.endsWild = true := by
  unfold ofPattern at hscan
  split at hscan
  · contradiction
  · obtain rfl := Option.some.inj hscan
    dsimp only at hliterals ⊢
    rw [hliterals]
    exact ⟨rfl, rfl⟩

/-- Behind a beginning nothing is left if the value is no longer. -/
private theorem length_beq_eq_isEmpty_drop (h : literal <+: value) :
    (value.length == literal.length) = (value.drop literal.length).isEmpty := by
  obtain ⟨rest, rfl⟩ := h
  rw [List.drop_left, List.length_append]
  cases rest <;> simp

/-- **Both scans are one.** -/
theorem isMatchBy_eq (hfind : find.FindsFirst) (hscan : ofPattern pattern = some scan)
    (value : Bytes) : scan.isMatchBy find value = scan.isMatch value := by
  unfold isMatchBy isMatch
  split
  · rfl
  · unfold finds
    cases hliterals : scan.literals with
    | nil =>
      -- only stars, which any value matches
      obtain ⟨hstarts, hends⟩ := wild_of_literals_eq_nil hscan hliterals
      rw [hstarts, hends]
      rfl
    | cons first rest =>
      cases scan.startsWild with
      | true => exact floatingBy_eq hfind scan.endsWild value (List.cons_ne_nil first rest) 0
      | false =>
        -- the first literal is at the beginning, and the others behind it
        simp only [Bool.false_eq_true, if_false]
        cases hprefix : first.isPrefixOf value with
        | false => rfl
        | true =>
          rw [Bool.true_and]
          cases rest with
          | nil =>
            show (scan.endsWild || value.length == first.length) =
              (scan.endsWild || (value.drop first.length).isEmpty)
            rw [length_beq_eq_isEmpty_drop (List.isPrefixOf_iff_prefix.1 hprefix)]
          | cons second rest =>
            exact floatingBy_eq hfind scan.endsWild value (List.cons_ne_nil second rest) first.length

/-- **A scan matches what its pattern expands to**, as far as the bytes of the value can be read. -/
theorem isMatch_iff_expandsTo (hscan : ofPattern pattern = some scan) :
    scan.isMatch value = true ↔ (∀ b ∈ value, InAlphabet b) ∧ Glob.ExpandsTo pattern value := by
  rw [isMatch_iff hscan, Glob.expandsTo_iff_matches]

end LiteralScan

/-- **Scanning is exact.** Let there be a scan for the pattern, and let the literals be looked for by
any routine that finds the first place. A value matches if and only if each of its bytes can be read
and the pattern turns into it by putting some bytes for each star: no expansion is missed because a
literal was taken too early, and literals that would have to share bytes are not taken for one. The
scan that cuts the value up instead answers the same. -/
theorem scanning_is_exact (hfind : find.FindsFirst)
    (hscan : LiteralScan.ofPattern pattern = some scan) (value : Bytes) :
    (scan.isMatchBy find value = true ↔
      (∀ b ∈ value, InAlphabet b) ∧ Glob.ExpandsTo pattern value) ∧
    scan.isMatch value = scan.isMatchBy find value := by
  have hsame := LiteralScan.isMatchBy_eq hfind hscan value
  rw [hsame]
  exact ⟨LiteralScan.isMatch_iff_expandsTo hscan, rfl⟩

/-- The pattern `*ab*abc`. In `abxabc` its literals follow one another, and in `abc` they would have to
share their bytes. -/
theorem scanning_is_exact_overlap :
    Finder.FindsFirst Finder.plain ∧
      LiteralScan.ofPattern [42, 97, 98, 42, 97, 98, 99] =
        some ⟨[[97, 98], [97, 98, 99]], true, false⟩ ∧
      Glob.ExpandsTo [42, 97, 98, 42, 97, 98, 99] [97, 98, 120, 97, 98, 99] ∧
      ¬ Glob.ExpandsTo [42, 97, 98, 42, 97, 98, 99] [97, 98, 99] := by
  have hscan : LiteralScan.ofPattern [42, 97, 98, 42, 97, 98, 99] =
      some ⟨[[97, 98], [97, 98, 99]], true, false⟩ := by decide
  have happart := (scanning_is_exact Finder.findsFirst_plain hscan [97, 98, 120, 97, 98, 99]).1
  have hshared := (scanning_is_exact Finder.findsFirst_plain hscan [97, 98, 99]).1
  have hbytes : ∀ b ∈ ([97, 98, 99] : Bytes), InAlphabet b := by decide +kernel
  refine ⟨Finder.findsFirst_plain, hscan, (happart.1 (by decide)).2, fun hexpands => ?_⟩
  -- `ab` is found at the beginning, and `c`, which is left, does not end with `abc`
  exact absurd (hshared.2 ⟨hbytes, hexpands⟩) (by decide)

end ByteMatch
