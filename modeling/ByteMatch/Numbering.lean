/-!
# Numberings

Elements numbered `0, 1, 2, …` in the order in which they were first met. `Numbering.index?` and the
array of elements are two views of one bijection (`Numbering.index?_eq_some_iff`).
-/

namespace ByteMatch

/-- Elements in the order of their numbers, each once. -/
structure Numbering (β : Type) where
  items : Array β
  nodup : items.toList.Nodup

namespace Numbering

variable {β : Type}

/-- No element has a number yet. -/
def empty : Numbering β := ⟨#[], List.nodup_nil⟩

variable [DecidableEq β]

/-- The number of an element that has been met. -/
def index? (numbering : Numbering β) (x : β) : Option Nat := numbering.items.findIdx? (· == x)

/-- Gives `x` the next number, unless it has one already, and tells whether it was new. -/
def insert (numbering : Numbering β) (x : β) : Bool × Numbering β :=
  if h : numbering.items.contains x then (false, numbering)
  else
    (true, {
      items := numbering.items.push x
      nodup := by
        have hx : x ∉ numbering.items := by simpa using h
        rw [Array.toList_push]
        exact List.nodup_append.2 ⟨numbering.nodup, by simp,
          fun y hy z hz => by rintro rfl; simp_all⟩ })

/-! ### Views -/

/-- An element has the number of the place at which it stands. -/
theorem index?_eq_some_iff {numbering : Numbering β} {x : β} {i : Nat} :
    numbering.index? x = some i ↔ numbering.items[i]? = some x := by
  unfold index?
  rw [Array.findIdx?_eq_some_iff_getElem]
  constructor
  · rintro ⟨hi, hx, -⟩
    simpa [hi] using hx
  · intro h
    obtain ⟨hi, hx⟩ := Array.getElem?_eq_some_iff.1 h
    refine ⟨hi, by simpa using hx, fun j hj => ?_⟩
    have hne := List.pairwise_iff_getElem.1 numbering.nodup j i (by simp; omega) (by simpa) hj
    simpa [← hx] using hne

/-- Numbers count from zero up to the number of elements. -/
theorem index?_lt {numbering : Numbering β} {x : β} {i : Nat} (h : numbering.index? x = some i) :
    i < numbering.items.size :=
  (Array.getElem?_eq_some_iff.1 (index?_eq_some_iff.1 h)).1

/-- Only an element that has not been met is new. -/
theorem insert_fst (numbering : Numbering β) (x : β) :
    (numbering.insert x).1 = true ↔ x ∉ numbering.items := by
  unfold insert
  by_cases h : x ∈ numbering.items <;> simp [h]

/-- A new element is put behind the others. -/
theorem toList_insert (numbering : Numbering β) (x : β) :
    (numbering.insert x).2.items.toList =
      if x ∈ numbering.items then numbering.items.toList
      else numbering.items.toList ++ [x] := by
  unfold insert
  by_cases h : x ∈ numbering.items <;> simp [h]

/-- After an insertion there is an element. -/
theorem size_insert_pos (numbering : Numbering β) (x : β) :
    0 < (numbering.insert x).2.items.size := by
  unfold insert
  split
  · next h => exact Array.size_pos_of_mem (Array.contains_iff_mem.1 h)
  · simp

end Numbering

end ByteMatch
