import ByteMatch.Draft
import ByteMatch.Proofs.Prepending
import Mathlib.Data.List.Chain

/-!
# The form of tables

A table gives each byte of the alphabet one step in one way only: its runs are in the form
`Runs.Packed`, with no run empty, none too many and none beyond the alphabet, and each epsilon edge is
listed once. Every operation by which tables are made keeps to this form (`Table.WellFormed`), so it
holds of whatever has been put together with them.

In a row of this form every value that stands in a run is read at a place of the row
(`Runs.Packed.exists_get?`). So what is known of the steps that can be taken is known of all that a
table holds.
-/

namespace ByteMatch

/-! ### Packed rows -/

namespace Runs

variable {β γ : Type}

/-- **The form in which a row of `n` places is packed.** No run is empty, the last one ends with the
row, and neighbouring runs have different values. -/
structure Packed (n : Nat) (runs : Runs β) : Prop where
  ascending : (0 :: runs.ends).Pairwise (· < ·)
  ends_last : runs.ends.getLast? = some n
  apart : runs.values.IsChain (· ≠ ·)

private theorem ends_places (k : Nat) (row : List β) :
    (places k row).ends = List.range' (k + 1) row.length := by
  induction row generalizing k with
  | nil => rfl
  | cons x row ih => exact congrArg ((k + 1) :: ·) (ih (k + 1))

section Compact

variable [DecidableEq β]

private theorem getLast?_ends_compact (runs : Runs β) :
    (compact runs).ends.getLast? = runs.ends.getLast? := by
  induction runs with
  | nil => rfl
  | cons run rest ih =>
    obtain ⟨bound, x⟩ := run
    cases rest with
    | nil => rfl
    | cons next rest =>
      -- the run in front is never the last one
      obtain ⟨bound', rest', hhead⟩ := compact_cons_head next.1 next.2 rest
      have hlast : (ends ((bound, x) :: next :: rest)).getLast? = (ends (next :: rest)).getLast? :=
        List.getLast?_cons_cons
      rw [hlast, ← ih, compact, hhead, extend]
      split
      · rfl
      · exact List.getLast?_cons_cons

private theorem isChain_values_compact (runs : Runs β) : (compact runs).values.IsChain (· ≠ ·) := by
  induction runs with
  | nil => exact .nil
  | cons run rest ih =>
    obtain ⟨bound, x⟩ := run
    rw [compact]
    cases hrest : compact rest with
    | nil => exact .singleton x
    | cons next rest' =>
      -- what follows is packed, so the run in front is joined to it or has another value
      obtain ⟨bound', y⟩ := next
      rw [hrest] at ih
      rw [extend]
      split
      · exact ih
      · next hne => exact .cons_cons hne ih

/-- Packing takes nothing away but runs in front of others. -/
theorem packed_compact {n : Nat} {runs : Runs β} (hascending : (0 :: runs.ends).Pairwise (· < ·))
    (hlast : runs.ends.getLast? = some n) : (compact runs).Packed n where
  ascending := hascending.sublist (((compact_sublist runs).map Prod.fst).cons_cons 0)
  ends_last := by rw [getLast?_ends_compact, hlast]
  apart := isChain_values_compact runs

/-- **A packed row has the form** that goes with its length. -/
theorem packed_ofRow {row : List β} (h : row ≠ []) : (ofRow row).Packed row.length := by
  have hpos : 0 < row.length := List.length_pos_iff.2 h
  apply packed_compact
  · rw [ends_places, ← List.range'_succ]
    exact List.pairwise_lt_range'
  · rw [ends_places, List.getLast?_range', if_neg (by omega)]
    congr 1
    omega

omit [DecidableEq β] in
theorem Packed.mapValues [DecidableEq γ] {n : Nat} {runs : Runs β} (h : runs.Packed n)
    (f : β → γ) : (runs.mapValues f).Packed n := by
  -- other values may make neighbours equal, but the runs still end where they did
  have hends : ends (runs.map fun run => (run.1, f run.2)) = runs.ends := by
    rw [ends, ends, List.map_map]
    rfl
  apply packed_compact
  · rw [hends]
    exact h.ascending
  · rw [hends]
    exact h.ends_last

end Compact

/-- The place before the end of a run has its value: the runs before it have ended. -/
private theorem get?_before_end {runs : Runs β} {k i : Nat} {x : β}
    (h : (k :: runs.ends).Pairwise (· < ·)) (hrun : (i + 1, x) ∈ runs) :
    k ≤ i ∧ runs.get? i = some x := by
  induction runs generalizing k with
  | nil => exact absurd hrun List.not_mem_nil
  | cons run rest ih =>
    obtain ⟨bound, y⟩ := run
    obtain ⟨hk, hrest⟩ := List.pairwise_cons.1 h
    have hbound : k < bound := hk bound List.mem_cons_self
    rw [get?_cons]
    rcases List.mem_cons.1 hrun with heq | hrun
    · obtain ⟨rfl, rfl⟩ := Prod.mk.inj heq
      exact ⟨Nat.le_of_lt_succ hbound, if_pos (Nat.lt_succ_self i)⟩
    · -- the run comes later, so the first one has ended by then
      obtain ⟨hle, hget⟩ := ih hrest hrun
      rw [if_neg (Nat.not_lt.2 hle)]
      exact ⟨Nat.le_trans (Nat.le_of_lt hbound) hle, hget⟩

/-- The ends come up to the last of them. -/
theorem Packed.le_of_mem_ends {n : Nat} {runs : Runs β} (h : runs.Packed n) {bound : Nat}
    (hbound : bound ∈ runs.ends) : bound ≤ n := by
  obtain ⟨before, hends⟩ := List.getLast?_eq_some_iff.1 h.ends_last
  have hascending := (List.pairwise_cons.1 h.ascending).2
  rw [hends] at hbound hascending
  rcases List.mem_append.1 hbound with hbefore | hlast
  · -- ends ascend, and `n` is the last of them
    exact Nat.le_of_lt ((List.pairwise_append.1 hascending).2.2 _ hbefore n List.mem_cons_self)
  · exact Nat.le_of_eq (List.mem_singleton.1 hlast)

/-- **Every value of a packed row is read at a place.** -/
theorem Packed.exists_get? {n : Nat} {runs : Runs β} (h : runs.Packed n) {x : β}
    (hx : x ∈ runs.values) : ∃ i, i < n ∧ runs.get? i = some x := by
  obtain ⟨⟨bound, y⟩, hrun, rfl⟩ := List.mem_map.1 hx
  have hbound : bound ∈ runs.ends := List.mem_map_of_mem hrun
  have hpos : 0 < bound := (List.pairwise_cons.1 h.ascending).1 bound hbound
  obtain ⟨i, rfl⟩ := Nat.exists_eq_succ_of_ne_zero (Nat.ne_of_gt hpos)
  exact ⟨i, Nat.lt_of_succ_le (h.le_of_mem_ends hbound), (get?_before_end h.ascending hrun).2⟩

end Runs

/-! ### Tables -/

namespace Table

/-- **The form of a table**: a packed row over the alphabet, and epsilon edges to distinct targets. -/
structure WellFormed (table : Table) : Prop where
  packed : table.steps.Packed alphabetSize
  epsilons_nodup : table.epsilons.Nodup

theorem wellFormed_uniform (target : Option StateId) : (uniform target).WellFormed where
  packed := by
    refine ⟨?_, rfl, .singleton target⟩
    exact List.pairwise_pair.2 (Nat.zero_lt_succ _)
  epsilons_nodup := List.nodup_nil

theorem packed_row {β : Type} [DecidableEq β] {row : List β} (h : row.length = alphabetSize) :
    (Runs.ofRow row).Packed alphabetSize := by
  have hne : row ≠ [] := by
    rw [← List.length_pos_iff, h]
    decide
  rw [← h]
  exact Runs.packed_ofRow hne

/-- A row that is tabulated is packed, like the row of all its values. -/
theorem packed_tabulate {β : Type} [DecidableEq β] {cuts : List Nat} {f : Nat → β}
    (h : ∀ c, 0 < c → c < alphabetSize → c ∉ cuts → f c = f (c - 1)) :
    (Runs.tabulate alphabetSize cuts f).Packed alphabetSize := by
  rw [Runs.tabulate_eq h]
  apply packed_row
  rw [List.length_map, List.length_range]

theorem wellFormed_ofEntries (default : Option StateId)
    (entries : List (UInt8 × Option StateId)) : (ofEntries default entries).WellFormed where
  packed := packed_tabulate fun _ hpos _ hc => lastTarget_sub_one default hpos hc
  epsilons_nodup := List.nodup_nil

theorem WellFormed.setRow {table : Table} (h : table.WellFormed) {row : List (Option StateId)}
    (hrow : row.length = alphabetSize) : (table.setRow row).WellFormed where
  packed := packed_row hrow
  epsilons_nodup := h.epsilons_nodup

theorem WellFormed.addEpsilon {table : Table} (h : table.WellFormed) (target : StateId) :
    (table.addEpsilon target).WellFormed := by
  unfold Table.addEpsilon
  split
  · exact h
  · -- only a target that is not there yet is added
    next hnew =>
    refine ⟨h.packed, ?_⟩
    have hdisjoint : table.epsilons.Disjoint [target] := by
      intro e he htarget
      rw [List.mem_singleton.1 htarget] at he
      exact hnew he
    exact h.epsilons_nodup.append (List.nodup_singleton target) hdisjoint

theorem WellFormed.foldl_addEpsilon {table : Table} (h : table.WellFormed)
    (targets : List StateId) : (targets.foldl Table.addEpsilon table).WellFormed := by
  induction targets generalizing table with
  | nil => exact h
  | cons target targets ih => exact ih (h.addEpsilon target)

end Table

/-- All tables have the form that they should. -/
def Graph.TablesWellFormed {α : Type} (g : Graph α) : Prop :=
  ∀ node ∈ g.nodes, node.table.WellFormed

end ByteMatch
