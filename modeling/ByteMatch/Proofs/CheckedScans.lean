import ByteMatch.CheckedMatcher
import ByteMatch.Proofs.CheckedCaches
import ByteMatch.Proofs.ScanExactness

/-!
# Checking every look-up makes no difference to matching

A scan with a finder keeps to places within the value. It goes on from behind the literal that was found
last, and the place found is the first at which the literal stands: a literal that is not empty takes up
bytes of the value, and an empty one stands at the first place of all
(`Finder.FindsFirst.add_length_le`). So what follows the position is always there to be cut off
(`LiteralScan.checkedIsMatchBy_eq`), and matching that checks every look-up comes out as matching that
does not (`Matcher.checkedMatchValue_eq`).
-/

namespace ByteMatch

variable {find : Finder} {literal value : Bytes} {place position : Nat}

/-! ### Scans -/

/-- **A literal that is found ends within the value.** -/
theorem Finder.FindsFirst.add_length_le (hfind : find.FindsFirst)
    (h : find literal value = some place) : place + literal.length ≤ value.length := by
  have hlength := (hfind.stands h).length_le
  rw [List.length_drop] at hlength
  by_cases hplace : place ≤ value.length
  · omega
  · -- nothing but the empty literal stands behind the end, and that stands at the beginning as well
    have hempty : literal = [] := by
      apply List.eq_nil_of_length_eq_zero
      omega
    exact absurd (hempty ▸ List.nil_prefix) (hfind.first h 0 (by omega))

theorem behind_eq (h : place ≤ value.length) : behind value place = .ok (value.drop place) := if_pos h

namespace LiteralScan

/-- Behind a literal that is found the position is still within the value. -/
private theorem position_le (hfind : find.FindsFirst) (hposition : position ≤ value.length)
    (h : find literal (value.drop position) = some place) :
    position + place + literal.length ≤ value.length := by
  -- found in what follows the position, so the literal ends within that
  have hle := hfind.add_length_le h
  rw [List.length_drop] at hle
  omega

private theorem behindAll_le (hfind : find.FindsFirst) {literals : List Bytes} {last : Nat}
    (hposition : position ≤ value.length)
    (h : behindAll find value literals position = some last) : last ≤ value.length := by
  induction literals generalizing position with
  | nil =>
    obtain rfl := Option.some.inj h
    exact hposition
  | cons literal literals ih =>
    rw [behindAll] at h
    split at h
    · contradiction
    · next place hplace => exact ih (position_le hfind hposition hplace) h

theorem checkedBehindAll_eq (hfind : find.FindsFirst) (literals : List Bytes)
    (hposition : position ≤ value.length) :
    checkedBehindAll find value literals position = .ok (behindAll find value literals position) := by
  induction literals generalizing position with
  | nil => rfl
  | cons literal literals ih =>
    rw [checkedBehindAll, behind_eq hposition, behindAll]
    -- the place is within the value, so both go on from what follows it
    dsimp only [bind, Except.bind]
    cases hplace : find literal (value.drop position) with
    | none => rfl
    | some place => exact ih (position_le hfind hposition hplace)

theorem checkedFloatingBy_eq (hfind : find.FindsFirst) (endsWild : Bool) (literals : List Bytes)
    (hposition : position ≤ value.length) :
    checkedFloatingBy find endsWild value literals position =
      .ok (floatingBy find endsWild value literals position) := by
  unfold checkedFloatingBy floatingBy
  cases literals.getLast? with
  | none => rfl
  | some last =>
    dsimp only
    rw [checkedBehindAll_eq hfind _ hposition]
    cases hbehind : behindAll find value literals.dropLast position with
    | none => rfl
    | some position' =>
      show (behind value position' >>= _) = _
      rw [behind_eq (behindAll_le hfind hposition hbehind)]
      rfl

/-- **A scan comes out the same if every place is checked.** -/
theorem checkedIsMatchBy_eq (hfind : find.FindsFirst) (scan : LiteralScan) (value : Bytes) :
    scan.checkedIsMatchBy find value = .ok (scan.isMatchBy find value) := by
  unfold checkedIsMatchBy isMatchBy
  split
  · rfl
  · cases scan.literals with
    | nil => rfl
    | cons first rest =>
      dsimp only
      split
      · exact checkedFloatingBy_eq hfind scan.endsWild (first :: rest) (Nat.zero_le _)
      · split
        · rfl
        · next hprefix =>
          split
          · rfl
          · -- the first literal is at the beginning, so the value is at least as long
            have hfirst : first <+: value := by simpa using hprefix
            exact checkedFloatingBy_eq hfind scan.endsWild rest hfirst.length_le

end LiteralScan

/-! ### Matchers -/

namespace Matcher

variable {α : Type} {matcher : Matcher α}

/-- All scans of the matcher are those of patterns. -/
def ScansPatterns (matcher : Matcher α) : Prop :=
  ∀ entry ∈ matcher.scans, ∃ pattern, LiteralScan.ofPattern pattern = some entry.1

/-- The scans one after the other, each with the payload that it adds if the value matches. -/
theorem scanned_eq_flatMap (matcher : Matcher α) (value : Bytes) :
    matcher.scanned value =
      matcher.scans.flatMap fun entry => if entry.1.isMatch value then [entry.2] else [] := by
  rw [scanned]
  generalize matcher.scans = scans
  induction scans with
  | nil => rfl
  | cons entry scans ih =>
    rw [List.flatMap_cons, ← ih, List.filter_cons]
    cases entry.1.isMatch value with
    | false => rfl
    | true => rfl

theorem checkedScanned_eq (hfind : find.FindsFirst) (hscans : matcher.ScansPatterns)
    (value : Bytes) : matcher.checkedScanned find value = .ok (matcher.scanned value) := by
  rw [scanned_eq_flatMap]
  refine flatMapM_eq_ok fun entry hentry => ?_
  obtain ⟨pattern, hscan⟩ := hscans entry hentry
  rw [LiteralScan.checkedIsMatchBy_eq hfind, LiteralScan.isMatchBy_eq hfind hscan]
  rfl

/-- **Matching comes out the same if every look-up is checked**, and leaves the same context behind. -/
theorem checkedMatchValue_eq [DecidableEq α] {published : Publications α} {ctx : Context α}
    (hfind : find.FindsFirst) (hscans : matcher.ScansPatterns) (hctx : ctx.Sound published)
    (hsnapshot : matcher.snapshot.PublishedIn published)
    (tables : matcher.snapshot.automaton.TablesWellFormed) (value : Bytes) (incoming : List α) :
    matcher.checkedMatchValue find ctx value incoming = matcher.matchValue ctx value incoming := by
  rw [checkedMatchValue, checkedScanned_eq hfind hscans, matchValue]
  dsimp only
  split
  · rfl
  · exact hctx.checkedTraverseCached_eq hsnapshot tables value _

end Matcher

end ByteMatch
