/-!
# Sparse sets

A set of numbers below a fixed bound that is emptied in constant time. The members stand at the
front of `dense`, in the order of their insertion, and `sparse` says where each of them stands.
Emptying the set only forgets how many members there are and leaves both arrays as they were, so an
entry of `sparse` counts only if `dense` agrees with it: that is the rule `dense_sparse`.
-/

namespace ByteMatch

/-- A set of numbers below `n`. -/
structure SparseSet (n : Nat) where
  /-- The members, in the first `size` places. -/
  dense : Vector Nat n
  /-- For each member, its place in `dense`. -/
  sparse : Vector Nat n
  /-- The number of members. -/
  size : Nat
  size_le : size ≤ n
  dense_sparse : ∀ k x, k < size → dense[k]? = some x → sparse[x]? = some k

namespace SparseSet

variable {n : Nat}

/-- The empty set of numbers below `n`. -/
def empty (n : Nat) : SparseSet n where
  dense := Vector.replicate n 0
  sparse := Vector.replicate n 0
  size := 0
  size_le := Nat.zero_le n
  dense_sparse := by intro k x hk; omega

/-- The members, in the order of their insertion. -/
def toList (s : SparseSet n) : List Nat := (s.dense.toArray.take s.size).toList

/-- Whether `x` is a member: its entry in `sparse` points at a place in use that holds `x`. -/
def contains (s : SparseSet n) (x : Nat) : Bool :=
  match s.sparse[x]? with
  | none => false
  | some k => k < s.size && s.dense[k]? == some x

/-- Adds `x`, and tells whether that changed the set: it does not if `x` is a member already, or is
not below the bound. A full set holds every number below the bound, so any other `x` finds room. -/
def insert (s : SparseSet n) (x : Nat) : Bool × SparseSet n :=
  if hmem : s.contains x then (false, s)
  else if h : x < n ∧ s.size < n then
    (true, {
      dense := s.dense.set s.size x h.2
      sparse := s.sparse.set x s.size h.1
      size := s.size + 1
      size_le := h.2
      dense_sparse := by
        intro k y hk hy
        rw [Vector.getElem?_set] at hy ⊢
        by_cases hks : s.size = k
        · subst hks
          simp_all
        · rw [if_neg hks] at hy
          have hky := s.dense_sparse k y (by omega) hy
          have hxy : x ≠ y := by
            rintro rfl
            exact hmem (by simp [contains, hky, hy]; omega)
          rw [if_neg hxy]
          exact hky })
  else (false, s)

/-- Forgets all members. -/
def clear (s : SparseSet n) : SparseSet n :=
  { s with size := 0, size_le := Nat.zero_le n, dense_sparse := by intro k x hk; omega }

/-! ### Members -/

theorem length_toList (s : SparseSet n) : s.toList.length = s.size := by
  simp [toList, Nat.min_eq_left s.size_le]

theorem getElem?_toList (s : SparseSet n) (k : Nat) :
    s.toList[k]? = if k < s.size then s.dense[k]? else none := by
  simp [toList, List.getElem?_take]

theorem mem_toList {s : SparseSet n} {x : Nat} :
    x ∈ s.toList ↔ ∃ k, k < s.size ∧ s.dense[k]? = some x := by
  rw [List.mem_iff_getElem?]
  refine exists_congr fun k => ?_
  rw [getElem?_toList]
  by_cases hk : k < s.size <;> simp [hk]

/-- The entry in `sparse` decides membership. -/
theorem contains_iff_mem {s : SparseSet n} {x : Nat} : s.contains x = true ↔ x ∈ s.toList := by
  rw [mem_toList]
  constructor
  · intro h
    unfold contains at h
    split at h
    · contradiction
    · next k _ => exact ⟨k, by simpa using h⟩
  · rintro ⟨k, hk, hx⟩
    unfold contains
    rw [s.dense_sparse k x hk hx]
    simp [hk, hx]

@[simp] theorem toList_clear (s : SparseSet n) : s.clear.toList = [] := by simp [clear, toList]

@[simp] theorem toList_empty (n : Nat) : (empty n).toList = [] := by simp [empty, toList]

/-- An insertion that changes the set puts the new member behind the others. -/
theorem toList_insert_of_true {s : SparseSet n} {x : Nat} (h : (s.insert x).1 = true) :
    (s.insert x).2.toList = s.toList ++ [x] := by
  unfold insert at h ⊢
  split at h
  · contradiction
  · split at h
    · next hmem hlt =>
      rw [dif_neg hmem, dif_pos hlt]
      apply List.ext_getElem?
      intro k
      rw [getElem?_toList, Vector.getElem?_set, List.getElem?_append, getElem?_toList,
        length_toList]
      rcases Nat.lt_trichotomy k s.size with hk | rfl | hk
      · have : s.size ≠ k := by omega
        simp [hk, this, Nat.lt_succ_of_lt hk]
      · simp
      · have : ¬ k < s.size + 1 := by omega
        have : ¬ k < s.size := by omega
        have : k - s.size ≠ 0 := by omega
        simp [*]
    · contradiction

/-- An insertion that does not change the set leaves its members alone. -/
theorem toList_insert_of_false {s : SparseSet n} {x : Nat} (h : (s.insert x).1 = false) :
    (s.insert x).2.toList = s.toList := by
  unfold insert at h ⊢
  split at h
  · next hmem => rw [dif_pos hmem]
  · split at h
    · contradiction
    · next hmem hlt => rw [dif_neg hmem, dif_neg hlt]

theorem toList_of_insert_new {s s' : SparseSet n} {x : Nat} (h : s.insert x = (true, s')) :
    s'.toList = s.toList ++ [x] := by
  have hlist := toList_insert_of_true (congrArg Prod.fst h)
  rwa [h] at hlist

theorem toList_of_insert_old {s s' : SparseSet n} {x : Nat} (h : s.insert x = (false, s')) :
    s'.toList = s.toList := by
  have hlist := toList_insert_of_false (congrArg Prod.fst h)
  rwa [h] at hlist

theorem size_of_insert_new {s s' : SparseSet n} {x : Nat} (h : s.insert x = (true, s')) :
    s'.size = s.size + 1 := by
  rw [← length_toList, toList_of_insert_new h, List.length_append, length_toList,
    List.length_singleton]

theorem size_of_insert_old {s s' : SparseSet n} {x : Nat} (h : s.insert x = (false, s')) :
    s'.size = s.size := by
  rw [← length_toList, toList_of_insert_old h, length_toList]

end SparseSet

end ByteMatch
