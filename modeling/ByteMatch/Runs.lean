/-!
# Run-length rows

A row gives a value to each of the numbers `0, 1, 2, …` up to its length. `Runs` holds a row as its
runs of equal values, each with the number at which it ends (exclusive), so that a row over a whole
alphabet that mostly holds one value stays a few entries long:

* `Runs.ofRow` packs a row, and `Runs.toRow` expands it again;
* `Runs.get?` reads one place of the row without expanding it;
* `Runs.tabulate` packs the row of a function that changes only at given places, without working it
  out at every place; `Runs.tabulate_eq` says that the result is the same;
* `Runs.mapValues` changes the values and joins the neighbours that have become equal.

All packing goes through `Runs.compact`, so that a packed row has no two neighbouring runs with the
same value and equal rows have equal runs.
-/

namespace ByteMatch

/-- A row as runs of equal values: the exclusive end of each run, and its value. -/
abbrev Runs (β : Type) := List (Nat × β)

namespace Runs

variable {β γ : Type}

/-- The value at place `i`: that of the first run that ends above `i`. -/
def get? (runs : Runs β) (i : Nat) : Option β :=
  (runs.find? fun run => i < run.1).map Prod.snd

/-- The values of the runs, in order. -/
def values (runs : Runs β) : List β := runs.map Prod.snd

/-- The ends of the runs, in order. -/
def ends (runs : Runs β) : List Nat := runs.map Prod.fst

/-! ### Packing -/

/-- Puts a run in front, unless the next one has the same value and so goes on with it. -/
def extend [DecidableEq β] (bound : Nat) (x : β) : Runs β → Runs β
  | [] => [(bound, x)]
  | (bound', y) :: rest =>
    if x = y then (bound', y) :: rest else (bound, x) :: (bound', y) :: rest

/-- Joins neighbouring runs of the same value. -/
def compact [DecidableEq β] : Runs β → Runs β
  | [] => []
  | (bound, x) :: rest => extend bound x (compact rest)

/-- A row as runs of one place each, the first of them at place `i`. -/
def places (i : Nat) : List β → Runs β
  | [] => []
  | x :: row => (i + 1, x) :: places (i + 1) row

/-- The runs of a row. -/
def ofRow [DecidableEq β] (row : List β) : Runs β := compact (places 0 row)

/-- Changes the value of every place. -/
def mapValues [DecidableEq γ] (f : β → γ) (runs : Runs β) : Runs γ :=
  compact (runs.map fun run => (run.1, f run.2))

/-! ### Expanding -/

/-- The row from place `i` on, of runs that begin there. -/
def toRowFrom (i : Nat) : Runs β → List β
  | [] => []
  | (bound, x) :: rest => List.replicate (bound - i) x ++ toRowFrom bound rest

/-- The row that the runs stand for. -/
def toRow (runs : Runs β) : List β := toRowFrom 0 runs

/-! ### Tabulating -/

/-- The row `f 0, …, f (n - 1)` of a function that changes its value only at the places in `cuts`:
it is enough to look at the place before each of these and at the last one. -/
def tabulate [DecidableEq β] (n : Nat) (cuts : List Nat) (f : Nat → β) : Runs β :=
  let ends := (List.range' 1 n).filter fun c => c == n || cuts.contains c
  compact (ends.map fun c => (c, f (c - 1)))

variable [DecidableEq β]

/-- A packed row begins with the value with which the row begins. -/
theorem compact_cons_head (bound : Nat) (x : β) (rest : Runs β) :
    ∃ bound' rest', compact ((bound, x) :: rest) = (bound', x) :: rest' := by
  unfold compact extend
  split
  · exact ⟨_, _, rfl⟩
  · next bound' y rest' _ =>
    by_cases h : x = y
    · subst h
      exact ⟨bound', rest', by simp⟩
    · exact ⟨bound, (bound', y) :: rest', by simp [h]⟩

/-- A run that goes on with the same value need not be listed. -/
theorem compact_cons_cons_self (bound bound' : Nat) (x : β) (rest : Runs β) :
    compact ((bound, x) :: (bound', x) :: rest) = compact ((bound', x) :: rest) := by
  obtain ⟨b, r, h⟩ := compact_cons_head bound' x rest
  rw [compact, h, extend, if_pos rfl]

/-- Where a function keeps its value, it may be left out of the table. -/
theorem compact_filter_places {f : Nat → β} {keep : Nat → Bool} (len start : Nat)
    (hlast : 0 < len → keep (start + len) = true)
    (h : ∀ c, start < c → c < start + len → keep c = false → f c = f (c - 1)) :
    compact (((List.range' (start + 1) len).filter keep).map fun c => (c, f (c - 1))) =
      compact (places start ((List.range' start len).map f)) := by
  induction len generalizing start with
  | zero => rfl
  | succ len ih =>
    have ih := ih (start + 1)
      (fun hpos => by simpa [Nat.add_assoc, Nat.add_comm 1 len] using hlast (by omega))
      (fun c hlo hhi => h c (by omega) (by omega))
    simp only [List.range'_succ, List.map_cons, places]
    by_cases hk : keep (start + 1)
    · rw [List.filter_cons_of_pos hk, List.map_cons, compact, compact, ih, Nat.add_sub_cancel]
    · rw [List.filter_cons_of_neg hk, ih]
      cases len with
      | zero => exact absurd (hlast (by omega)) hk
      | succ len =>
        have hf := h (start + 1) (by omega) (by omega) (by simpa using hk)
        simp only [List.range'_succ, List.map_cons, places]
        rw [Nat.add_sub_cancel] at hf
        rw [hf, compact_cons_cons_self]

/-- A table of the places where the function changes is the packed row of all its values. -/
theorem tabulate_eq {n : Nat} {cuts : List Nat} {f : Nat → β}
    (h : ∀ c, 0 < c → c < n → c ∉ cuts → f c = f (c - 1)) :
    tabulate n cuts f = ofRow ((List.range n).map f) := by
  unfold tabulate ofRow
  rw [List.range_eq_range']
  exact compact_filter_places n 0 (by simp) fun c hlo hhi hkeep => by
    simp only [Bool.or_eq_false_iff, List.contains_eq_mem, decide_eq_false_iff_not] at hkeep
    exact h c hlo (by omega) hkeep.2

end Runs

end ByteMatch
