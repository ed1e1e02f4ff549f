import Mathlib.Data.List.Nodup
import Mathlib.Data.List.Sort
import Mathlib.Tactic.Tauto
import ByteMatch.StateSet

/-!
# Lists without repetition

`List.eraseDups` keeps the first of each element: what it makes of a list that was put together, and
when it has nothing to do. Of the states that a walk is in each is listed once as well, in this way or
in ascending order (`StateSet.distinct`), and whichever it is, the states are the same.
-/

namespace ByteMatch

variable {α : Type}

theorem nodup_eraseDups [DecidableEq α] (xs : List α) : xs.eraseDups.Nodup := by
  cases xs with
  | nil => exact List.nodup_nil
  | cons x xs =>
    rw [List.eraseDups_cons, List.nodup_cons]
    exact ⟨by simp, nodup_eraseDups _⟩
termination_by xs.length
decreasing_by
  rw [List.length_cons]
  exact Nat.lt_succ_of_le (List.length_filter_le _ _)

theorem eraseDups_of_nodup [DecidableEq α] {xs : List α} (h : xs.Nodup) : xs.eraseDups = xs := by
  induction xs with
  | nil => rfl
  | cons x xs ih =>
    obtain ⟨hx, hxs⟩ := List.nodup_cons.1 h
    have hothers : (xs.filter fun y => !y == x) = xs := by
      rw [List.filter_eq_self]
      intro y hy
      simpa using fun heq : y = x => hx (heq ▸ hy)
    rw [List.eraseDups_cons, hothers, ih hxs]

/-- What is kept may be picked before or after. -/
theorem eraseDups_filter [DecidableEq α] (keep : α → Bool) (xs : List α) :
    (xs.filter keep).eraseDups = xs.eraseDups.filter keep := by
  cases xs with
  | nil => rfl
  | cons x xs =>
    have ih := eraseDups_filter keep (xs.filter fun y => !y == x)
    rw [List.eraseDups_cons]
    by_cases hx : keep x = true
    · rw [List.filter_cons_of_pos hx, List.filter_cons_of_pos hx, List.eraseDups_cons, ← ih,
        List.filter_comm]
    · -- the element is not kept, so it makes no difference to what is
      have hothers : (xs.filter fun y => !y == x).filter keep = xs.filter keep := by
        rw [List.filter_filter]
        apply List.filter_congr
        intro y _
        by_cases hy : y = x
        · subst hy
          simp [hx]
        · simp [hy]
      rw [List.filter_cons_of_neg hx, List.filter_cons_of_neg hx, ← ih, hothers]
termination_by xs.length
decreasing_by
  rw [List.length_cons]
  exact Nat.lt_succ_of_le (List.length_filter_le _ _)

theorem eraseDups_append_left [DecidableEq α] (xs ys : List α) :
    (xs.eraseDups ++ ys).eraseDups = (xs ++ ys).eraseDups := by
  -- what is removed depends on which elements there are, not on how often
  have hkept : ys.removeAll xs.eraseDups = ys.removeAll xs := by
    apply List.filter_congr
    intro y _
    simp [List.mem_eraseDups]
  rw [List.eraseDups_append, List.eraseDups_append, hkept, eraseDups_of_nodup (nodup_eraseDups xs)]

theorem eraseDups_append_right [DecidableEq α] (xs ys : List α) :
    (xs ++ ys.eraseDups).eraseDups = (xs ++ ys).eraseDups := by
  have hkept : (ys.eraseDups.removeAll xs).eraseDups = (ys.removeAll xs).eraseDups := by
    rw [List.removeAll, List.removeAll, eraseDups_filter, eraseDups_filter,
      eraseDups_of_nodup (nodup_eraseDups ys)]
  rw [List.eraseDups_append, List.eraseDups_append, hkept]

/-- An element put behind a list is listed unless it is there already. -/
theorem eraseDups_concat [DecidableEq α] (xs : List α) (x : α) :
    (xs ++ [x]).eraseDups = if x ∈ xs.eraseDups then xs.eraseDups else xs.eraseDups ++ [x] := by
  rw [List.eraseDups_append, List.removeAll]
  by_cases hx : x ∈ xs
  · rw [if_pos (List.mem_eraseDups.2 hx), List.filter_cons_of_neg (by simpa using hx)]
    exact List.append_nil _
  · rw [if_neg (by rwa [List.mem_eraseDups]), List.filter_cons_of_pos (by simpa using hx)]
    rfl

/-! ### Sets of states -/

namespace StateSet

private theorem mem_eraseRepsBy_loop {x : StateId} (a : StateId) (xs acc : List StateId) :
    x ∈ List.eraseRepsBy.loop (· == ·) a xs acc ↔ x = a ∨ x ∈ xs ∨ x ∈ acc := by
  induction xs generalizing a acc with
  | nil => simp [List.eraseRepsBy.loop, or_comm]
  | cons b xs ih =>
    rw [List.eraseRepsBy.loop]
    split
    · -- `b` repeats `a` and is skipped
      next heq =>
      obtain rfl : a = b := by simpa using heq
      rw [ih, List.mem_cons]
      tauto
    · rw [ih, List.mem_cons, List.mem_cons]
      tauto

theorem mem_sorted {x : StateId} {states : List StateId} : x ∈ sorted states ↔ x ∈ states := by
  have hperm := List.mergeSort_perm states (fun a b => decide (a ≤ b))
  rw [sorted, ← hperm.mem_iff]
  cases states.mergeSort (fun a b => decide (a ≤ b)) with
  | nil => rfl
  | cons a xs => simp [List.eraseReps, List.eraseRepsBy, mem_eraseRepsBy_loop]

private theorem ascending_eraseRepsBy_loop (a : StateId) (xs acc : List StateId)
    (hacc : (a :: acc).Pairwise (· > ·)) (hrest : (a :: xs).Pairwise (· ≤ ·)) :
    (List.eraseRepsBy.loop (· == ·) a xs acc).Pairwise (· < ·) := by
  induction xs generalizing a acc with
  | nil => exact List.pairwise_reverse.2 hacc
  | cons b xs ih =>
    obtain ⟨hhead, htail⟩ := List.pairwise_cons.1 hrest
    have hle : a ≤ b := hhead b List.mem_cons_self
    rw [List.eraseRepsBy.loop]
    split
    · -- a repetition is skipped
      refine ih a acc hacc (List.pairwise_cons.2 ⟨fun y hy => ?_, (List.pairwise_cons.1 htail).2⟩)
      exact hhead y (List.mem_cons_of_mem _ hy)
    · -- `a` is done with and goes onto the others, all of them smaller than `b`
      next hne =>
      have hlt : a < b := Nat.lt_of_le_of_ne hle (by simpa using hne)
      refine ih b (a :: acc) (List.pairwise_cons.2 ⟨fun y hy => ?_, hacc⟩) htail
      rcases List.mem_cons.1 hy with rfl | hy
      · exact hlt
      · exact Nat.lt_trans ((List.pairwise_cons.1 hacc).1 y hy) hlt

/-- Sorted by insertion the list is the same, and that is what the kernel evaluates. -/
theorem sorted_eq_insertionSort (states : List StateId) :
    sorted states = (states.insertionSort (· ≤ ·)).eraseReps := by
  rw [sorted, List.mergeSort_eq_insertionSort]

theorem sorted_eq_nil_iff {states : List StateId} : sorted states = [] ↔ states = [] := by
  rw [List.eq_nil_iff_forall_not_mem, List.eq_nil_iff_forall_not_mem]
  exact forall_congr' fun s => not_congr mem_sorted

/-- Sorted lists ascend strictly. -/
theorem ascending_sorted (states : List StateId) : (sorted states).Pairwise (· < ·) := by
  have htrans : ∀ a b c : StateId, decide (a ≤ b) → decide (b ≤ c) → decide (a ≤ c) := by
    simp only [decide_eq_true_eq]
    exact fun a b c => Nat.le_trans
  have htotal : ∀ a b : StateId, decide (a ≤ b) || decide (b ≤ a) := by
    intro a b
    simpa using Nat.le_total a b
  have hsorted := List.pairwise_mergeSort htrans htotal states
  simp only [decide_eq_true_eq] at hsorted
  rw [sorted]
  cases hcases : states.mergeSort (fun a b => decide (a ≤ b)) with
  | nil => exact List.Pairwise.nil
  | cons a xs =>
    rw [hcases] at hsorted
    exact ascending_eraseRepsBy_loop a xs [] (List.pairwise_singleton _ a) hsorted

/-- Whatever the threshold, the same states are kept. -/
theorem mem_distinct {threshold : Nat} {x : StateId} {states : List StateId} :
    x ∈ distinct threshold states ↔ x ∈ states := by
  unfold distinct
  split
  · exact mem_sorted
  · exact List.mem_eraseDups

theorem distinct_nil (threshold : Nat) : distinct threshold [] = [] := by
  unfold distinct
  split
  · rw [sorted_eq_nil_iff]
  · rfl

/-- One state is listed as it is, sorted or not. -/
theorem distinct_singleton (threshold : Nat) (s : StateId) : distinct threshold [s] = [s] := by
  unfold distinct
  split
  · rw [sorted, List.mergeSort_singleton]
    rfl
  · rfl

end StateSet

end ByteMatch
