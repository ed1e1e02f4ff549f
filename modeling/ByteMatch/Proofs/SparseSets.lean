import ByteMatch.Proofs.Exploration
import ByteMatch.SparseSet

/-!
# Sparse sets list what was inserted

A sparse set lists numbers below its bound, each of them once, so it has room for any number that is
missing, and an insertion tells whether the number was missing. With that a sparse set is as good as a
list of what was inserted (`SparseSet.lawful_insert`).
-/

namespace ByteMatch

open Discovery

namespace SparseSet

variable {n : Nat}

theorem lt_of_mem_toList {s : SparseSet n} {x : Nat} (h : x ∈ s.toList) : x < n := by
  obtain ⟨k, hk, hx⟩ := mem_toList.1 h
  exact (Vector.getElem?_eq_some_iff.1 (s.dense_sparse k x hk hx)).1

/-- Two places that hold the same member have the same entry in `sparse`. -/
theorem nodup_toList (s : SparseSet n) : s.toList.Nodup := by
  rw [List.nodup_iff_pairwise_ne, List.pairwise_iff_getElem]
  intro i j hi hj hij heq
  rw [length_toList] at hi hj
  have hdi : s.dense[i]? = some s.toList[i] := by
    rw [← List.getElem?_eq_getElem, getElem?_toList, if_pos hi]
  have hdj : s.dense[j]? = some s.toList[j] := by
    rw [← List.getElem?_eq_getElem, getElem?_toList, if_pos hj]
  -- `sparse` sends the one member back to both places
  have hsi := s.dense_sparse i _ hi hdi
  have hsj := s.dense_sparse j _ hj hdj
  rw [heq, hsj] at hsi
  have : j = i := Option.some.inj hsi
  omega

/-- A set that misses a number below its bound is not full. -/
theorem size_lt_of_not_mem {s : SparseSet n} {x : Nat} (hx : x < n) (h : x ∉ s.toList) :
    s.size < n := by
  -- `x` and the members are distinct numbers below `n`
  have hsub : x :: s.toList ⊆ List.range n := by
    intro y hy
    rcases List.mem_cons.1 hy with rfl | hy
    · exact List.mem_range.2 hx
    · exact List.mem_range.2 (lt_of_mem_toList hy)
  have hle := (List.nodup_cons.2 ⟨h, s.nodup_toList⟩).length_le_of_subset hsub
  rw [List.length_cons, length_toList, List.length_range] at hle
  exact hle

theorem insert_fst {s : SparseSet n} {x : Nat} (hx : x < n) :
    (s.insert x).1 = true ↔ x ∉ s.toList := by
  rw [← contains_iff_mem, insert]
  by_cases hmem : s.contains x = true
  · simp [hmem]
  · have hroom : s.size < n := size_lt_of_not_mem hx (by rwa [← contains_iff_mem])
    simp [hmem, hx, hroom]

/-- **Sparse sets are lawful.** -/
theorem lawful_insert (n : Nat) :
    Lawful (SparseSet.insert (n := n)) SparseSet.toList (List.range n) where
  nodup := nodup_toList
  new_iff _ _ hx := insert_fst (List.mem_range.1 hx)
  members_of_new _ _ h := toList_insert_of_true h
  members_of_old _ _ h := toList_insert_of_false h

end SparseSet

end ByteMatch
