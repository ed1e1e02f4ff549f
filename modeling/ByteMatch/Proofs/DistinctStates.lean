import Mathlib.Data.List.Induction
import ByteMatch.Compaction
import ByteMatch.Proofs.Repetition

/-!
# Duplicates are taken out

`StateSet.dedupe` gives a result on every array and with every threshold: the states of the array
once each, in the order in which they come first or in ascending order
(`StateSet.duplicates_are_taken_out`). The list that it leaves is the one that walks go on with,
`StateSet.distinct`.

In place, reading runs ahead of writing. What carries the loop is `Compaction.Read`: after `i`
places have been read, the kept states are what those places held, each once, and they take up no
more than `i` places, so from place `i` on everything stands as it did.
-/

namespace ByteMatch

/-! ### Reading ahead of writing -/

namespace Compaction

variable {states : Array StateId} {i : Nat} {compaction : Compaction}

/-- **The first `i` places have been read.** -/
structure Read (states : Array StateId) (i : Nat) (compaction : Compaction) : Prop where
  size_eq : compaction.states.size = states.size
  kept_le : compaction.kept ≤ i
  /-- What stood in the places that have been read is kept, once each. -/
  front : (compaction.states.take compaction.kept).toList = (states.toList.take i).eraseDups
  /-- The other places have not been written to. -/
  rest : ∀ j, i ≤ j → compaction.states[j]? = states[j]?

private theorem read_zero (states : Array StateId) : Read states 0 ⟨states, 0⟩ where
  size_eq := rfl
  kept_le := Nat.le_refl 0
  front := by simp
  rest _ _ := rfl

/-- The first place behind those that are kept is written to. -/
private theorem toList_take_set (states : Array StateId) (state : StateId) {k : Nat}
    (h : k < states.size) :
    ((states.set k state h).take (k + 1)).toList = (states.take k).toList ++ [state] := by
  have hlt : k < (states.toList.set k state).length := by simpa using h
  -- the places in front of the one written to stay as they were
  have hunchanged : (states.toList.set k state).take k = states.toList.take k := by
    rw [List.take_set, List.set_eq_of_length_le (List.length_take_le k _)]
  rw [Array.take_eq_extract, Array.take_eq_extract]
  simp [List.take_succ_eq_append_getElem hlt, hunchanged]

section Read

variable (h : Read states i compaction) (hi : i < states.size)

include h hi

/-- There is room for one more state: no more are kept than have been read. -/
theorem Read.kept_lt : compaction.kept < compaction.states.size := by
  rw [h.size_eq]
  exact Nat.lt_of_le_of_lt h.kept_le hi

/-- What is to be kept when one more place has been read. -/
theorem Read.eraseDups_take_succ : (states.toList.take (i + 1)).eraseDups =
    if states[i] ∈ compaction.states.take compaction.kept then
      (compaction.states.take compaction.kept).toList
    else (compaction.states.take compaction.kept).toList ++ [states[i]] := by
  rw [List.take_succ_eq_append_getElem (by simpa using hi), Array.getElem_toList, eraseDups_concat,
    ← h.front]
  simp only [Array.mem_toList_iff]

/-- A state that is kept already is passed over. -/
theorem Read.skip (hold : states[i] ∈ compaction.states.take compaction.kept) :
    Read states (i + 1) compaction where
  size_eq := h.size_eq
  kept_le := Nat.le_succ_of_le h.kept_le
  front := by rw [h.eraseDups_take_succ hi, if_pos hold]
  rest j hj := h.rest j (Nat.le_of_succ_le hj)

/-- Another state is moved to the end of those that are kept. -/
theorem Read.keep (hnew : states[i] ∉ compaction.states.take compaction.kept) :
    Read states (i + 1)
      ⟨compaction.states.set compaction.kept states[i] (h.kept_lt hi), compaction.kept + 1⟩ where
  size_eq := by rw [Array.size_set, h.size_eq]
  kept_le := Nat.succ_le_succ h.kept_le
  front := by rw [toList_take_set, h.eraseDups_take_succ hi, if_neg hnew]
  rest j hj := by
    -- the place that is written to has been read
    have hne : compaction.kept ≠ j := Nat.ne_of_lt (Nat.lt_of_le_of_lt h.kept_le hj)
    rw [Array.getElem?_set_ne _ hne]
    exact h.rest j (Nat.le_of_succ_le hj)

/-- **One place is read.** -/
theorem Read.take : ∃ next, compaction.take i = some next ∧ Read states (i + 1) next := by
  -- the place is there, and still as it was
  have hstate : compaction.states[i]? = some states[i] := by
    rw [h.rest i (Nat.le_refl i), Array.getElem?_eq_getElem hi]
  have hroom := h.kept_lt hi
  rw [Compaction.take, hstate]
  dsimp only
  rw [if_neg (Nat.not_lt_of_lt hroom)]
  by_cases hmem : states[i] ∈ compaction.states.take compaction.kept
  · rw [if_pos hmem]
    exact ⟨compaction, rfl, h.skip hi hmem⟩
  · rw [if_neg hmem, dif_pos hroom]
    exact ⟨_, rfl, h.keep hi hmem⟩

end Read

/-- All places are read. -/
theorem Read.foldlM_take (m : Nat) (h : Read states i compaction) (hend : i + m = states.size) :
    ∃ last, (List.range' i m).foldlM Compaction.take compaction = some last ∧
      Read states states.size last := by
  -- on the number of places that are left
  induction m generalizing i compaction with
  | zero => exact ⟨compaction, rfl, hend ▸ h⟩
  | succ m ih =>
    obtain ⟨next, htake, hnext⟩ := h.take (by omega)
    obtain ⟨last, hlater, hlast⟩ := ih hnext (by omega)
    refine ⟨last, ?_, hlast⟩
    rw [List.range'_succ, List.foldlM_cons, htake]
    exact hlater

end Compaction

namespace StateSet

/-- **Compacting in place** keeps what is listed without repetition. -/
theorem compact_eq (states : Array StateId) :
    compact states = some states.toList.eraseDups.toArray := by
  obtain ⟨last, hfold, hlast⟩ :=
    (Compaction.read_zero states).foldlM_take states.size (Nat.zero_add _)
  -- when all places have been read, what is kept is all of the list, once each
  have hall : states.toList.take states.size = states.toList :=
    List.take_of_length_le (Nat.le_of_eq Array.length_toList)
  rw [compact, List.range_eq_range', hfold, Option.map_some, ← hall, ← hlast.front]

/-- **Taking out duplicates in place** leaves what `distinct` lists. -/
theorem dedupe_eq (threshold : Nat) (states : Array StateId) :
    dedupe threshold states = some (distinct threshold states.toList).toArray := by
  rw [dedupe]
  split
  · next hshort =>
    -- nothing to take out, so sorting makes no difference
    obtain ⟨list⟩ := states
    match list, hshort with
    | [], _ => rw [distinct_nil]
    | [s], _ => rw [distinct_singleton]
    | _ :: _ :: list, hshort =>
      simp only [List.size_toArray, List.length_cons] at hshort
      omega
  · rw [distinct, Array.length_toList]
    split
    · rfl
    · exact compact_eq states

/-! ### First occurrences -/

/-- The states that do not stand at an earlier place as well, in order. -/
def firstOccurrences (states : List StateId) : List StateId :=
  (states.zipIdx.filter fun (state, i) => state ∉ states.take i).map Prod.fst

private theorem firstOccurrences_concat (states : List StateId) (s : StateId) :
    firstOccurrences (states ++ [s]) =
      if s ∈ states then firstOccurrences states else firstOccurrences states ++ [s] := by
  -- what stands behind a place does not matter to whether it is a first occurrence
  have hbefore : (states.zipIdx.filter fun (state, i) => state ∉ (states ++ [s]).take i) =
      states.zipIdx.filter fun (state, i) => state ∉ states.take i := by
    apply List.filter_congr
    rintro ⟨state, i⟩ hmem
    have hlt : i < states.length := by simpa using (List.mem_zipIdx hmem).2.1
    dsimp only
    rw [List.take_append_of_le_length (Nat.le_of_lt hlt)]
  rw [firstOccurrences, List.zipIdx_append, List.filter_append, hbefore, List.map_append]
  by_cases hs : s ∈ states
  · simp [hs, firstOccurrences]
  · simp [hs, firstOccurrences]

/-- The first occurrences are what is listed without repetition. -/
theorem firstOccurrences_eq (states : List StateId) :
    firstOccurrences states = states.eraseDups := by
  induction states using List.reverseRecOn with
  | nil => rfl
  | append_singleton states s ih =>
    rw [firstOccurrences_concat, eraseDups_concat, ih]
    simp only [List.mem_eraseDups]

/-! ### Both regimes -/

theorem nodup_distinct (threshold : Nat) (states : List StateId) :
    (distinct threshold states).Nodup := by
  unfold distinct
  split
  · exact (ascending_sorted states).imp Nat.ne_of_lt
  · exact nodup_eraseDups states

/-- **Duplicates are taken out.** There is a result, whatever the array and the threshold. It holds
the states of the array once each: if there are no more than the threshold, the first occurrences in
the order of the array, and otherwise in ascending order. The threshold makes no difference to what
is kept, and what is left is the list that walks go on with. -/
theorem duplicates_are_taken_out (threshold : Nat) (states : Array StateId) :
    ∃ result, dedupe threshold states = some result ∧ result.toList.Nodup ∧
      (∀ s, s ∈ result ↔ s ∈ states) ∧
      (states.size ≤ threshold → result.toList = firstOccurrences states.toList) ∧
      (threshold < states.size → result.toList.Pairwise (· < ·)) ∧
      (∀ threshold', ∃ result', dedupe threshold' states = some result' ∧
        result.toList.Perm result'.toList) ∧
      result.toList = distinct threshold states.toList := by
  refine ⟨_, dedupe_eq threshold states, nodup_distinct _ _, ?_, ?_, ?_, ?_, rfl⟩
  · intro s
    rw [List.mem_toArray, mem_distinct, Array.mem_toList_iff]
  · intro hshort
    rw [firstOccurrences_eq, distinct, if_neg (by simpa using hshort)]
  · intro hlong
    rw [distinct, if_pos (by simpa using hlong)]
    exact ascending_sorted _
  · intro threshold'
    refine ⟨_, dedupe_eq threshold' states, ?_⟩
    rw [List.perm_ext_iff_of_nodup (nodup_distinct _ _) (nodup_distinct _ _)]
    intro s
    rw [mem_distinct, mem_distinct]

/-- The state 2 is moved from the fourth place to the third, where a duplicate stood. With a
threshold of one less the states are sorted. -/
theorem duplicates_are_taken_out_five :
    let states : Array StateId := #[3, 1, 3, 2, 1]
    (∃ result, dedupe 5 states = some result ∧ states.size ≤ 5 ∧ result.toList = [3, 1, 2]) ∧
      ∃ result, dedupe 4 states = some result ∧ 4 < states.size ∧ result.toList.Pairwise (· < ·) ∧
        ∀ s, s ∈ result ↔ s ∈ states := by
  intro states
  have hshort : states.size ≤ 5 := by decide
  have hlong : 4 < states.size := by decide
  obtain ⟨result, hdedupe, -, -, hfirst, -⟩ := duplicates_are_taken_out 5 states
  obtain ⟨result', hdedupe', -, hmem', -, hascending', -⟩ := duplicates_are_taken_out 4 states
  exact ⟨⟨result, hdedupe, hshort, hfirst hshort⟩,
    result', hdedupe', hlong, hascending' hlong, hmem'⟩

end StateSet

end ByteMatch
