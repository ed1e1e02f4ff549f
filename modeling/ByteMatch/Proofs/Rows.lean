import ByteMatch.Runs

/-!
# Reading packed rows

A packed row is read like the row that it stands for: `Runs.get?_ofRow` for a row that is packed
place by place, `Runs.get?_tabulate` for a function that is tabulated at the places where it changes,
`Runs.get?_mapValues` for a row whose values are changed.

All three rest on `Runs.get?_compact`: joining neighbouring runs of one value changes nothing that is
read, as long as the runs stand in ascending order of their ends. A run left out is followed by one
that ends no earlier and has the same value, so what it covered is covered by that one.
-/

namespace ByteMatch.Runs

variable {β γ : Type}

/-- The runs stand in ascending order of their ends. -/
def Ascending (runs : Runs β) : Prop := runs.Pairwise fun run run' => run.1 ≤ run'.1

theorem get?_nil (i : Nat) : get? ([] : Runs β) i = none := rfl

theorem get?_cons (bound : Nat) (x : β) (rest : Runs β) (i : Nat) :
    get? ((bound, x) :: rest) i = if i < bound then some x else get? rest i := by
  unfold get?
  by_cases h : i < bound <;> simp [h]

theorem mem_values_of_get? {runs : Runs β} {i : Nat} {x : β} (h : runs.get? i = some x) :
    x ∈ runs.values := by
  obtain ⟨run, hfind, rfl⟩ := Option.map_eq_some_iff.1 h
  exact List.mem_map_of_mem (List.mem_of_find?_eq_some hfind)

/-- Two neighbouring places have the same value unless a run ends between them. -/
theorem get?_sub_one {runs : Runs β} {c : Nat} (hpos : 0 < c) (h : c ∉ runs.ends) :
    runs.get? c = runs.get? (c - 1) := by
  induction runs with
  | nil => rfl
  | cons run rest ih =>
    obtain ⟨bound, x⟩ := run
    simp only [ends, List.map_cons, List.mem_cons, not_or] at h
    rw [get?_cons, get?_cons, ih h.2]
    have hne : c ≠ bound := h.1
    -- the run covers both places or none of them
    have hiff : c < bound ↔ c - 1 < bound := by omega
    simp only [hiff]

/-! ### Places -/

private theorem lt_of_mem_places {k : Nat} {row : List β} {run : Nat × β} (h : run ∈ places k row) :
    k < run.1 := by
  induction row generalizing k with
  | nil => exact absurd h List.not_mem_nil
  | cons x row ih =>
    rcases List.mem_cons.1 h with rfl | h
    · exact Nat.lt_succ_self k
    · exact Nat.lt_of_succ_lt (ih h)

theorem values_places (k : Nat) (row : List β) : (places k row).values = row := by
  induction row generalizing k with
  | nil => rfl
  | cons x row ih => exact congrArg (x :: ·) (ih (k + 1))

private theorem ascending_places (k : Nat) (row : List β) : (places k row).Ascending := by
  induction row generalizing k with
  | nil => exact List.Pairwise.nil
  | cons x row ih =>
    exact List.pairwise_cons.2 ⟨fun run hrun => Nat.le_of_lt (lt_of_mem_places hrun), ih (k + 1)⟩

theorem get?_places (k : Nat) (row : List β) (i : Nat) : (places k row).get? i = row[i - k]? := by
  induction row generalizing k with
  | nil => simp [places, get?_nil]
  | cons x row ih =>
    rw [places, get?_cons, ih]
    -- the run in front covers place `k` alone
    by_cases hi : i < k + 1
    · have hzero : i - k = 0 := by omega
      rw [if_pos hi, hzero, List.getElem?_cons_zero]
    · have hsucc : i - k = (i - (k + 1)) + 1 := by omega
      rw [if_neg hi, hsucc, List.getElem?_cons_succ]

/-! ### Packing -/

section Compact

variable [DecidableEq β]

private theorem extend_sublist (bound : Nat) (x : β) (rest : Runs β) :
    (extend bound x rest).Sublist ((bound, x) :: rest) := by
  unfold extend
  split
  · exact List.Sublist.refl _
  · split
    · exact List.sublist_cons_self _ _
    · exact List.Sublist.refl _

theorem compact_sublist (runs : Runs β) : (compact runs).Sublist runs := by
  induction runs with
  | nil => exact List.Sublist.refl _
  | cons run rest ih => exact (extend_sublist run.1 run.2 _).trans (ih.cons_cons run)

/-- A run left out is covered by the next one. -/
theorem get?_extend {bound : Nat} {rest : Runs β} (h : ∀ run ∈ rest, bound ≤ run.1) (x : β)
    (i : Nat) : get? (extend bound x rest) i = get? ((bound, x) :: rest) i := by
  unfold extend
  split
  · rfl
  · next bound' y rest =>
    split
    · next heq =>
      subst heq
      have hle : bound ≤ bound' := h _ List.mem_cons_self
      rw [get?_cons, get?_cons, get?_cons]
      -- what the run left out covered, the next one covers with the same value
      by_cases hi : i < bound
      · rw [if_pos (by omega), if_pos hi]
      · rw [if_neg hi]
    · rfl

/-- **Packing changes nothing that is read.** -/
theorem get?_compact {runs : Runs β} (h : runs.Ascending) (i : Nat) :
    (compact runs).get? i = runs.get? i := by
  induction runs with
  | nil => rfl
  | cons run rest ih =>
    obtain ⟨bound, x⟩ := run
    obtain ⟨hhead, htail⟩ := List.pairwise_cons.1 h
    -- what is left of the others is among them, so it still comes behind the run
    rw [compact, get?_extend fun run hrun => hhead run ((compact_sublist rest).subset hrun),
      get?_cons, get?_cons, ih htail]

omit [DecidableEq β] in
theorem get?_mapValues [DecidableEq γ] {f : β → γ} {runs : Runs β} (h : runs.Ascending) (i : Nat) :
    (runs.mapValues f).get? i = (runs.get? i).map f := by
  have hmapped : Ascending (runs.map fun run => (run.1, f run.2)) := List.pairwise_map.2 h
  rw [mapValues, get?_compact hmapped]
  induction runs with
  | nil => rfl
  | cons run rest ih =>
    obtain ⟨bound, x⟩ := run
    rw [List.map_cons, get?_cons, get?_cons]
    split
    · rfl
    · exact ih (List.pairwise_cons.1 h).2 (List.pairwise_cons.1 hmapped).2

omit [DecidableEq β] in
theorem places_map (f : β → γ) (k : Nat) (row : List β) :
    places k (row.map f) = (places k row).map fun run => (run.1, f run.2) := by
  induction row generalizing k with
  | nil => rfl
  | cons x row ih => rw [List.map_cons, places, places, List.map_cons, ih]

/-- A function that keeps the values of a row apart keeps its runs apart. -/
theorem compact_map [DecidableEq γ] {f : β → γ} {runs : Runs β}
    (hf : ∀ x ∈ values runs, ∀ y ∈ values runs, f x = f y → x = y) :
    runs.mapValues f = (compact runs).map fun run => (run.1, f run.2) := by
  induction runs with
  | nil => rfl
  | cons run rest ih =>
    obtain ⟨bound, x⟩ := run
    have hcons : mapValues f ((bound, x) :: rest) = extend bound (f x) (mapValues f rest) := rfl
    have hrest : ∀ y ∈ values rest, ∀ z ∈ values rest, f y = f z → y = z :=
      fun y hy z hz => hf y (List.mem_cons_of_mem x hy) z (List.mem_cons_of_mem x hz)
    rw [hcons, ih hrest, compact]
    cases hcompact : compact rest with
    | nil => rfl
    | cons next rest' =>
      obtain ⟨bound', y⟩ := next
      have hy : y ∈ values rest := by
        have hnext : (bound', y) ∈ compact rest := by rw [hcompact]; exact List.mem_cons_self
        exact List.mem_map_of_mem ((compact_sublist rest).subset hnext)
      -- the run is left out before and after `f` alike
      have hiff : f x = f y ↔ x = y :=
        ⟨hf x List.mem_cons_self y (List.mem_cons_of_mem x hy), congrArg f⟩
      rw [List.map_cons, extend, extend]
      by_cases h : x = y
      · rw [if_pos h, if_pos (hiff.2 h), List.map_cons]
      · rw [if_neg h, if_neg (fun heq => h (hiff.1 heq)), List.map_cons, List.map_cons]

/-! ### Rows and tables -/

/-- Packing leaves no other values than those of the row. -/
theorem mem_of_mem_values_ofRow {row : List β} {x : β} (h : x ∈ (ofRow row).values) : x ∈ row := by
  obtain ⟨run, hrun, rfl⟩ := List.mem_map.1 h
  have hplace : run ∈ places 0 row := (compact_sublist _).subset hrun
  have hvalue : run.2 ∈ (places 0 row).values := List.mem_map_of_mem hplace
  rwa [values_places] at hvalue

theorem get?_ofRow (row : List β) (i : Nat) : (ofRow row).get? i = row[i]? := by
  rw [ofRow, get?_compact (ascending_places 0 row), get?_places, Nat.sub_zero]

variable {n : Nat} {cuts : List Nat} {f : Nat → β}

theorem ascending_tabulate : (tabulate n cuts f).Ascending := by
  refine List.Pairwise.sublist (compact_sublist _) (List.pairwise_map.2 ?_)
  exact ((List.pairwise_lt_range' _).filter _).imp fun h => Nat.le_of_lt h

theorem get?_tabulate (h : ∀ c, 0 < c → c < n → c ∉ cuts → f c = f (c - 1)) (i : Nat) :
    (tabulate n cuts f).get? i = if i < n then some (f i) else none := by
  rw [tabulate_eq h, get?_ofRow, List.getElem?_map]
  by_cases hi : i < n <;> simp [hi]

/-- The values of a table are those of the function. -/
theorem mem_values_tabulate (h : ∀ c, 0 < c → c < n → c ∉ cuts → f c = f (c - 1)) (x : β) :
    x ∈ (tabulate n cuts f).values ↔ ∃ i, i < n ∧ f i = x := by
  refine ⟨fun hx => ?_, ?_⟩
  · -- a run that is left after packing was tabulated at the place before its end
    obtain ⟨run, hrun, rfl⟩ := List.mem_map.1 hx
    obtain ⟨c, hc, rfl⟩ := List.mem_map.1 ((compact_sublist _).subset hrun)
    have hrange := List.mem_range'_1.1 (List.mem_filter.1 hc).1
    exact ⟨c - 1, by omega, rfl⟩
  · rintro ⟨i, hi, rfl⟩
    exact mem_values_of_get? (by rw [get?_tabulate h, if_pos hi])

end Compact

end ByteMatch.Runs
