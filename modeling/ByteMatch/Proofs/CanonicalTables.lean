import ByteMatch.Columns
import ByteMatch.Proofs.TableForm

/-!
# Tables are a canonical form

There is one table for each row of steps, and however a table was made, it is the one for its row. In
columns this is `tables_are_canonical`, of all tables that the operations of `ColumnTable` make one
after the other (`ColumnTable.Made`).

The argument is about runs. Two packed rows that are read alike are equal
(`Runs.eq_of_get?_eq`): where one has a run that ends earlier, it has another value at that end. Packed
runs, the row that they stand for and the columns in which they are kept are all read alike
(`Runs.getElem?_toRow`, `ColumnTable.step_ofTable`, `ColumnTable.unpack_ofTable`), and what the loops
over a row make are the runs of that row (`ColumnTable.pack_eq`).
-/

namespace ByteMatch

/-! ### Packed rows -/

namespace Runs

variable {β : Type}

/-- The run that goes on at the end of another one has another value. -/
private theorem get?_end_ne {bound : Nat} {x : β} {rest : Runs β}
    (h : (bound :: rest.ends).Pairwise (· < ·)) (hapart : (x :: rest.values).IsChain (· ≠ ·)) :
    rest.get? bound ≠ some x := by
  cases rest with
  | nil => exact (Option.some_ne_none x).symm
  | cons next rest =>
    obtain ⟨bound', y⟩ := next
    -- the run behind covers the place, and its value is another one
    have hlt : bound < bound' := (List.pairwise_cons.1 h).1 bound' List.mem_cons_self
    have hne : x ≠ y := (List.isChain_cons_cons.1 hapart).1
    rw [get?_cons, if_pos hlt]
    intro heq
    exact hne (Option.some.inj heq).symm

/-- **Packed rows that are read alike are equal.** -/
theorem eq_of_get?_eq {k : Nat} {runs runs' : Runs β} (h : (k :: runs.ends).Pairwise (· < ·))
    (h' : (k :: runs'.ends).Pairwise (· < ·)) (hapart : runs.values.IsChain (· ≠ ·))
    (hapart' : runs'.values.IsChain (· ≠ ·)) (hread : ∀ i, k ≤ i → runs.get? i = runs'.get? i) :
    runs = runs' := by
  induction runs generalizing k runs' with
  | nil =>
    cases runs' with
    | nil => rfl
    | cons run' rest' =>
      have hlt : k < run'.1 := (List.pairwise_cons.1 h').1 run'.1 List.mem_cons_self
      have hfirst := hread k (Nat.le_refl k)
      rw [get?_cons, if_pos hlt] at hfirst
      contradiction
  | cons run rest ih =>
    obtain ⟨bound, x⟩ := run
    obtain ⟨hk, hrest⟩ := List.pairwise_cons.1 h
    have hlt : k < bound := hk bound List.mem_cons_self
    -- read at the first place, both begin with the same value
    have hfirst := hread k (Nat.le_refl k)
    rw [get?_cons, if_pos hlt] at hfirst
    cases runs' with
    | nil => contradiction
    | cons run' rest' =>
      obtain ⟨bound', x'⟩ := run'
      obtain ⟨hk', hrest'⟩ := List.pairwise_cons.1 h'
      have hlt' : k < bound' := hk' bound' List.mem_cons_self
      rw [get?_cons, if_pos hlt'] at hfirst
      obtain rfl : x = x' := Option.some.inj hfirst
      -- the run that ended earlier would have the same value behind its end
      have hbound : bound = bound' := by
        rcases Nat.lt_trichotomy bound bound' with hb | hb | hb
        · have hend := hread bound (Nat.le_of_lt hlt)
          rw [get?_cons, get?_cons, if_neg (Nat.lt_irrefl _), if_pos hb] at hend
          exact absurd hend (get?_end_ne hrest hapart)
        · exact hb
        · have hend := hread bound' (Nat.le_of_lt hlt')
          rw [get?_cons, get?_cons, if_pos hb, if_neg (Nat.lt_irrefl _)] at hend
          exact absurd hend.symm (get?_end_ne hrest' hapart')
      subst hbound
      congr 1
      refine ih hrest hrest' hapart.tail hapart'.tail ?_
      intro i hi
      -- behind the first run the others are read
      have hi' := hread i (Nat.le_trans (Nat.le_of_lt hlt) hi)
      rwa [get?_cons, get?_cons, if_neg (Nat.not_lt.2 hi), if_neg (Nat.not_lt.2 hi)] at hi'

private theorem getElem?_toRowFrom {k : Nat} {runs : Runs β} (h : (k :: runs.ends).Pairwise (· < ·))
    (i : Nat) : (toRowFrom k runs)[i]? = runs.get? (k + i) := by
  induction runs generalizing k i with
  | nil => rfl
  | cons run rest ih =>
    obtain ⟨bound, x⟩ := run
    obtain ⟨hk, hrest⟩ := List.pairwise_cons.1 h
    have hlt : k < bound := hk bound List.mem_cons_self
    rw [toRowFrom, get?_cons, List.getElem?_append, List.length_replicate]
    -- the place lies in the first run, or so many places behind its end
    by_cases hi : k + i < bound
    · rw [if_pos hi, if_pos (by omega), List.getElem?_replicate, if_pos (by omega)]
    · have hplace : bound + (i - (bound - k)) = k + i := by omega
      rw [if_neg hi, if_neg (by omega), ih hrest, hplace]

namespace Packed

variable {n : Nat} {runs : Runs β}

/-- A packed row has a value at each of its places. -/
private theorem isSome_get?_iff (h : runs.Packed n) (i : Nat) : (runs.get? i).isSome ↔ i < n := by
  rw [get?, Option.isSome_map, List.find?_isSome]
  constructor
  · rintro ⟨run, hrun, hi⟩
    have hle := h.le_of_mem_ends (List.mem_map_of_mem hrun)
    exact Nat.lt_of_lt_of_le (of_decide_eq_true hi) hle
  · -- the last run ends with the row, so there is one that ends behind the place
    intro hi
    obtain ⟨run, hrun, hend⟩ := List.mem_map.1 (List.mem_of_getLast? h.ends_last)
    exact ⟨run, hrun, decide_eq_true (by rwa [hend])⟩

theorem getElem?_toRow (h : runs.Packed n) (i : Nat) : runs.toRow[i]? = runs.get? i := by
  rw [toRow, getElem?_toRowFrom h.ascending, Nat.zero_add]

theorem length_toRow (h : runs.Packed n) : runs.toRow.length = n := by
  -- the length is the first place at which nothing is read
  have hplace : ∀ i, i < runs.toRow.length ↔ i < n := by
    intro i
    rw [← h.isSome_get?_iff, ← h.getElem?_toRow, Option.isSome_iff_ne_none, ne_eq,
      List.getElem?_eq_none_iff, Nat.not_le]
  have hlow := hplace n
  have hhigh := hplace runs.toRow.length
  omega

/-- Packing the row of packed runs gives the runs again. -/
theorem ofRow_toRow [DecidableEq β] (h : runs.Packed n) (hn : 0 < n) : ofRow runs.toRow = runs := by
  have hne : runs.toRow ≠ [] := by
    rw [← List.length_pos_iff, h.length_toRow]
    exact hn
  have hpacked := packed_ofRow hne
  refine eq_of_get?_eq hpacked.ascending h.ascending hpacked.apart h.apart ?_
  intro i _
  rw [get?_ofRow, h.getElem?_toRow]

end Packed

theorem toRow_ofRow [DecidableEq β] {row : List β} (h : row ≠ []) : (ofRow row).toRow = row := by
  apply List.ext_getElem?
  intro i
  rw [(packed_ofRow h).getElem?_toRow, get?_ofRow]

end Runs

/-! ### Tables -/

namespace Table

variable {table : Table}

theorem getElem?_row (h : table.steps.Packed alphabetSize) {byte : UInt8} (hbyte : InAlphabet byte) :
    table.row[byte.toNat]? = some (table.step byte) := by
  obtain ⟨target, htarget⟩ := Option.isSome_iff_exists.1 ((h.isSome_get?_iff byte.toNat).2 hbyte)
  rw [row, h.getElem?_toRow, step, Table.target, htarget, Option.getD_some]

theorem step_of_not_inAlphabet (h : table.steps.Packed alphabetSize) {byte : UInt8}
    (hbyte : ¬ InAlphabet byte) : table.step byte = none := by
  have hnone : table.steps.get? byte.toNat = none := by
    rw [← Option.not_isSome_iff_eq_none, h.isSome_get?_iff]
    exact hbyte
  rw [step, target, hnone, Option.getD_none]

/-- A table is the one for its row. -/
theorem setRow_row (h : table.steps.Packed alphabetSize) : table.setRow table.row = table := by
  rw [setRow, row, h.ofRow_toRow alphabetSize_pos]

end Table

/-! ### Loops over columns -/

namespace ColumnTable

open Runs

/-- What the loop over a row has packed, when the run that goes on is ended as well. -/
private theorem foldl_take (row : List (Option StateId)) (i : Nat) (packing : Packing) :
    let packed := (row.zipIdx i).foldl Packing.take packing
    let runs := compact ((i, packing.current) :: places i row)
    packed.ceilings ++ [UInt8.ofNat (i + row.length)] =
        packing.ceilings ++ runs.ends.map UInt8.ofNat ∧
      packed.steps ++ [packed.current] = packing.steps ++ runs.values := by
  induction row generalizing i packing with
  | nil => exact ⟨rfl, rfl⟩
  | cons x row ih =>
    have hlength : i + (x :: row).length = i + 1 + row.length := by
      rw [List.length_cons]
      omega
    rw [List.zipIdx_cons, List.foldl_cons, hlength, places, Packing.take]
    by_cases hx : x = packing.current
    · -- the run goes on
      subst hx
      rw [if_pos rfl, compact_cons_cons_self]
      exact ih (i + 1) packing
    · -- the run ends at `i`
      obtain ⟨bound, rest, hhead⟩ := compact_cons_head (i + 1) x (places (i + 1) row)
      rw [if_neg hx, compact, hhead, extend, if_neg (Ne.symm hx), ← hhead]
      obtain ⟨hceilings, hsteps⟩ := ih (i + 1)
        ⟨x, packing.ceilings ++ [UInt8.ofNat i], packing.steps ++ [packing.current]⟩
      rw [List.append_assoc] at hceilings hsteps
      exact ⟨hceilings, hsteps⟩

/-- The run that goes on when the loop begins has no place of its own. -/
private theorem compact_places_toList (row : StepRow) :
    compact ((0, row.get ⟨0, alphabetSize_pos⟩) :: places 0 row.toList) = ofRow row.toList := by
  cases hrow : row.toList with
  | nil =>
    have hlength := row.length_toList
    rw [hrow] at hlength
    contradiction
  | cons first rest =>
    have hread : row.toList[0]? = some (row.get ⟨0, alphabetSize_pos⟩) := by
      rw [Vector.getElem?_toList]
      exact Vector.getElem?_eq_getElem alphabetSize_pos
    rw [hrow] at hread
    have hfirst : row.get ⟨0, alphabetSize_pos⟩ = first := (Option.some.inj hread).symm
    rw [hfirst, places, compact_cons_cons_self, ofRow, places]

/-- **What packing makes** are the runs of the row. -/
theorem pack_eq (table : ColumnTable) (row : StepRow) :
    table.pack row = ofTable ⟨ofRow row.toList, table.epsilons⟩ := by
  obtain ⟨hceilings, hsteps⟩ := foldl_take row.toList 0 ⟨row.get ⟨0, alphabetSize_pos⟩, [], []⟩
  rw [compact_places_toList] at hceilings hsteps
  rw [Vector.length_toList, Nat.zero_add] at hceilings
  rw [pack, ofTable, ceiling]
  congr 1

theorem ofTable_pack (table : Table) (row : StepRow) :
    (ofTable table).pack row = ofTable (table.setRow row.toList) := pack_eq _ row

theorem ofTable_uniform (target : Option StateId) :
    uniform target = ofTable (Table.uniform target) := rfl

theorem ofTable_addEpsilon (table : Table) (target : StateId) :
    (ofTable table).addEpsilon target = ofTable (table.addEpsilon target) := by
  by_cases h : target ∈ table.epsilons
  · rw [Table.addEpsilon, if_pos h]
    exact if_pos h
  · rw [Table.addEpsilon, if_neg h]
    exact if_neg h

/-- The end of a run fits into a byte. -/
private theorem toNat_end {bound : Nat} (h : bound ≤ alphabetSize) :
    (UInt8.ofNat bound).toNat = bound := by
  rw [UInt8.toNat_ofNat']
  unfold alphabetSize at h
  omega

section Loops

variable {steps : List (Option StateId)}

/-- Where the column of targets goes on with the targets of runs, their first target is at its place. -/
private theorem drop_eq_values {k bound : Nat} {x : Option StateId} {rest : Runs (Option StateId)}
    (h : steps.drop k = values ((bound, x) :: rest)) :
    steps[k]? = some x ∧ steps.drop (k + 1) = rest.values := by
  have hfirst : (steps.drop k)[0]? = some x := by
    rw [h]
    rfl
  rw [List.getElem?_drop, Nat.add_zero] at hfirst
  refine ⟨hfirst, ?_⟩
  rw [← List.tail_drop, h]
  rfl

theorem stepFrom_eq (runs : Runs (Option StateId)) (hle : ∀ bound ∈ runs.ends, bound ≤ alphabetSize)
    (byte : UInt8) (k : Nat) (hsteps : steps.drop k = runs.values) :
    stepFrom steps byte (runs.ends.map UInt8.ofNat) k =
      some ((runs.get? byte.toNat).getD none) := by
  induction runs generalizing k with
  | nil => rfl
  | cons run rest ih =>
    obtain ⟨bound, x⟩ := run
    obtain ⟨hx, hrest⟩ := drop_eq_values hsteps
    have hbound : bound ≤ alphabetSize := hle bound List.mem_cons_self
    -- ends of runs fit into bytes, so bytes are compared as numbers are
    have hlt : byte < UInt8.ofNat bound ↔ byte.toNat < bound := by
      rw [UInt8.lt_iff_toNat_lt, toNat_end hbound]
    rw [get?_cons]
    show (if byte < UInt8.ofNat bound then steps[k]?
      else stepFrom steps byte ((ends rest).map UInt8.ofNat) (k + 1)) = _
    by_cases hbyte : byte.toNat < bound
    · rw [if_pos (hlt.2 hbyte), if_pos hbyte, hx]
      rfl
    · rw [if_neg (mt hlt.1 hbyte), if_neg hbyte]
      exact ih (fun bound' hbound' => hle bound' (List.mem_cons_of_mem _ hbound')) (k + 1) hrest

/-- A run is written into the places that it covers. -/
theorem fill_eq {k : Nat} {x : Option StateId} (hx : steps[k]? = some x) {bound : Nat}
    (hbound : bound ≤ alphabetSize) (row : StepRow) (i : Nat) (hi : i ≤ bound) :
    ∃ row', fill steps k bound row i = some (row', bound) ∧
      ∀ j (hj : j < alphabetSize), row'[j] = if i ≤ j ∧ j < bound then x else row[j] := by
  -- on the number of places left to be written
  obtain ⟨left, rfl⟩ := Nat.exists_eq_add_of_le hi
  induction left generalizing row i with
  | zero =>
    refine ⟨row, ?_, ?_⟩
    · rw [fill, if_neg (by omega)]
      rfl
    · intro j hj
      rw [if_neg (by omega)]
  | succ left ih =>
    have hplace : i < alphabetSize := by omega
    have hnext : i + (left + 1) = i + 1 + left := by omega
    obtain ⟨row', hfill, hrow'⟩ := ih (row.set i x) (i + 1) (by omega) (by omega)
    refine ⟨row', ?_, ?_⟩
    · rw [fill, if_pos (by omega), hx]
      show (if h : i < alphabetSize then fill steps k (i + (left + 1)) (row.set i x) (i + 1)
        else none) = _
      rw [dif_pos hplace, hnext]
      exact hfill
    · intro j hj
      rw [hrow' j hj, Vector.getElem_set]
      split_ifs <;> first | rfl | omega

/-- Runs that begin at place `i` are written into the places from there on. -/
theorem unpackFrom_eq (runs : Runs (Option StateId))
    (hle : ∀ bound ∈ runs.ends, bound ≤ alphabetSize) (k i : Nat)
    (hascending : (i :: runs.ends).Pairwise (· < ·)) (hsteps : steps.drop k = runs.values)
    (row : StepRow) :
    ∃ row', unpackFrom steps (runs.ends.map UInt8.ofNat) k row i = some row' ∧
      ∀ j (hj : j < alphabetSize),
        row'[j] = if j < i then row[j] else (runs.get? j).getD row[j] := by
  induction runs generalizing k i row with
  | nil =>
    refine ⟨row, rfl, ?_⟩
    intro j hj
    rw [get?_nil, Option.getD_none, ite_self]
  | cons run rest ih =>
    obtain ⟨bound, x⟩ := run
    obtain ⟨hi, hrest⟩ := List.pairwise_cons.1 hascending
    obtain ⟨hx, hdrop⟩ := drop_eq_values hsteps
    have hbound : bound ≤ alphabetSize := hle bound List.mem_cons_self
    have hlt : i < bound := hi bound List.mem_cons_self
    obtain ⟨filled, hfill, hfilled⟩ := fill_eq hx hbound row i (Nat.le_of_lt hlt)
    obtain ⟨row', hunpack, hrow'⟩ :=
      ih (fun bound' hbound' => hle bound' (List.mem_cons_of_mem _ hbound')) (k + 1) bound hrest hdrop
        filled
    refine ⟨row', ?_, ?_⟩
    · show unpackFrom steps (UInt8.ofNat bound :: (ends rest).map UInt8.ofNat) k row i = some row'
      rw [unpackFrom, toNat_end hbound, hfill]
      exact hunpack
    · -- before `bound` stands what was written now, and from there on what is written later
      intro j hj
      rw [hrow' j hj, get?_cons, hfilled j hj]
      by_cases hj' : j < bound
      · rw [if_pos hj', if_pos hj', Option.getD_some]
        split_ifs <;> first | rfl | omega
      · rw [if_neg hj', if_neg hj', if_neg (by omega), if_neg (by omega)]

/-- Each place gets the target of the last entry for it. -/
theorem mapBytes_eq (entries : List (UInt8 × Option StateId))
    (h : ∀ entry ∈ entries, InAlphabet entry.1) (row : StepRow) :
    ∃ row', mapBytes entries row = some row' ∧
      ∀ j (hj : j < alphabetSize), row'[j] = Table.lastTarget row[j] entries j := by
  induction entries generalizing row with
  | nil => exact ⟨row, rfl, fun j hj => rfl⟩
  | cons entry entries ih =>
    obtain ⟨byte, target⟩ := entry
    have hbyte : byte.toNat < alphabetSize := h _ List.mem_cons_self
    obtain ⟨row', hmap, hrow'⟩ :=
      ih (fun entry hentry => h entry (List.mem_cons_of_mem _ hentry)) (row.set byte.toNat target)
    refine ⟨row', ?_, ?_⟩
    · rw [mapBytes, dif_pos hbyte, hmap]
    · intro j hj
      rw [hrow' j hj, Vector.getElem_set]
      rfl

private theorem mapBytes_eq_none {entries : List (UInt8 × Option StateId)}
    (h : ∃ entry ∈ entries, ¬ InAlphabet entry.1) (row : StepRow) : mapBytes entries row = none := by
  obtain ⟨out, hmem, hout⟩ := h
  induction entries generalizing row with
  | nil => exact absurd hmem List.not_mem_nil
  | cons entry entries ih =>
    obtain ⟨byte, target⟩ := entry
    rw [mapBytes]
    split
    · next hbyte =>
      rcases List.mem_cons.1 hmem with rfl | hmem
      · exact absurd hbyte hout
      · exact ih _ hmem
    · rfl

end Loops

/-! ### Columns of packed runs -/

section OfTable

variable {table : Table}

theorem step_ofTable (h : table.steps.Packed alphabetSize) (byte : UInt8) :
    (ofTable table).step byte = some (table.step byte) :=
  stepFrom_eq table.steps (fun _ hbound => h.le_of_mem_ends hbound) byte 0 rfl

theorem unpack_ofTable (h : table.steps.Packed alphabetSize) :
    ∃ row, (ofTable table).unpack = some row ∧ row.toList = table.row := by
  obtain ⟨row, hunpack, hrow⟩ := unpackFrom_eq table.steps (fun _ hbound => h.le_of_mem_ends hbound) 0 0
    h.ascending rfl (Vector.replicate alphabetSize none)
  refine ⟨row, hunpack, ?_⟩
  have hlength : row.toList.length = table.row.length := by
    rw [Vector.length_toList, Table.row, h.length_toRow]
  refine List.ext_getElem hlength ?_
  intro i hi hi'
  have hplace : i < alphabetSize := Nat.lt_of_lt_of_eq hi row.length_toList
  -- what is unpacked at a place is what is read there
  have hread : table.steps.get? i = some table.row[i] := by
    rw [← h.getElem?_toRow]
    exact List.getElem?_eq_getElem hi'
  rw [Vector.getElem_toList, hrow i hplace, if_neg (Nat.not_lt_zero i), hread, Option.getD_some]

/-- **Columns of packed runs unpack to the row that packs to them.** -/
theorem pack_unpack_ofTable (h : table.steps.Packed alphabetSize) :
    ∃ row, (ofTable table).unpack = some row ∧ row.toList = table.row ∧
      (ofTable table).pack row = ofTable table := by
  obtain ⟨row, hunpack, hrow⟩ := unpack_ofTable h
  refine ⟨row, hunpack, hrow, ?_⟩
  rw [ofTable_pack, hrow, Table.setRow_row h]

/-- **Packing can be undone**, whatever the table held before. -/
theorem unpack_pack (table : ColumnTable) (row : StepRow) : (table.pack row).unpack = some row := by
  have hlength : row.toList.length = alphabetSize := row.length_toList
  have hne : row.toList ≠ [] := by
    rw [← List.length_pos_iff, hlength]
    exact alphabetSize_pos
  -- the columns are those of a packed row, and of what it unpacks to there is one row that it packs
  have hpacked : (⟨ofRow row.toList, table.epsilons⟩ : Table).steps.Packed alphabetSize :=
    Table.packed_row hlength
  obtain ⟨row', hunpack, hrow'⟩ := unpack_ofTable hpacked
  rw [pack_eq, hunpack]
  congr 1
  apply Vector.toList_inj.1
  rw [hrow']
  exact toRow_ofRow hne

end OfTable

/-! ### Mappings -/

/-- Targets for bytes of the alphabet are tabulated at the places where the row changes. -/
theorem withMappings_of_forall (default : Option StateId) {bytes : Bytes}
    {targets : List (Option StateId)} (hin : ∀ entry ∈ bytes.zip targets, InAlphabet entry.1) :
    withMappings default bytes targets =
      some (ofTable (Table.ofEntries default (bytes.zip targets))) := by
  obtain ⟨row, hmap, hrow⟩ := mapBytes_eq _ hin (Vector.replicate alphabetSize default)
  -- written place by place, the row is the one in which the last entry counts
  have hlist : row.toList =
      (List.range alphabetSize).map (Table.lastTarget default (bytes.zip targets)) := by
    apply List.ext_getElem
    · rw [Vector.length_toList, List.length_map, List.length_range]
    · intro i hi hi'
      have hplace : i < alphabetSize := Nat.lt_of_lt_of_eq hi row.length_toList
      rw [Vector.getElem_toList, hrow i hplace, Vector.getElem_replicate, List.getElem_map,
        List.getElem_range]
  have hruns : ofRow row.toList = (Table.ofEntries default (bytes.zip targets)).steps := by
    rw [hlist, Table.ofEntries,
      tabulate_eq fun c hpos _ hc => Table.lastTarget_sub_one default hpos hc]
  rw [withMappings, hmap, Option.map_some, pack_eq, hruns]
  rfl

/-- **Mappings make the table of the entries**, and none where there is none. -/
theorem withMappings_eq_some_iff {default : Option StateId} {bytes : Bytes}
    {targets : List (Option StateId)} {columns : ColumnTable} :
    withMappings default bytes targets = some columns ↔
      ∃ table, Table.ofEntries? default (bytes.zip targets) = .ok table ∧ ofTable table = columns := by
  simp only [Table.ofEntries?_eq_ok_iff]
  by_cases hin : ∀ entry ∈ bytes.zip targets, InAlphabet entry.1
  · rw [withMappings_of_forall default hin, Option.some.injEq]
    constructor
    · intro h
      exact ⟨_, ⟨hin, rfl⟩, h⟩
    · rintro ⟨_, ⟨-, rfl⟩, h⟩
      exact h
  · -- a byte outside the alphabet has no place in the row
    have hout : ∃ entry ∈ bytes.zip targets, ¬ InAlphabet entry.1 := by
      simpa only [not_forall, exists_prop] using hin
    rw [withMappings, mapBytes_eq_none hout]
    constructor
    · intro h
      contradiction
    · rintro ⟨_, ⟨hin', -⟩, -⟩
      exact absurd hin' hin

section Occurrences

variable {default target : Option StateId} {bytes : Bytes} {targets : List (Option StateId)}
  {byte : UInt8}

private theorem lastTarget_zip_of_not_mem (h : byte ∉ bytes) :
    Table.lastTarget default (bytes.zip targets) byte.toNat = default := by
  rcases Table.lastTarget_eq_or default (bytes.zip targets) byte.toNat with
    heq | ⟨⟨other, target⟩, hentry, hother, -⟩
  · exact heq
  · -- an entry for the byte would make it one of the bytes
    obtain rfl : other = byte := UInt8.toNat_inj.1 hother
    exact absurd (List.of_mem_zip hentry).1 h

/-- What was given before the last occurrence of a byte does not count. -/
private theorem lastTarget_zip_of_last {k : Nat} (hbyte : bytes[k]? = some byte)
    (hlast : byte ∉ bytes.drop (k + 1)) (htarget : targets[k]? = some target) :
    Table.lastTarget default (bytes.zip targets) byte.toNat = target := by
  induction bytes generalizing default targets k with
  | nil => simp at hbyte
  | cons first bytes ih =>
    cases targets with
    | nil => simp at htarget
    | cons given targets =>
      show Table.lastTarget (if first.toNat = byte.toNat then given else default)
        (bytes.zip targets) byte.toNat = target
      cases k with
      | zero =>
        -- this is the last occurrence, so its target is the default of the others
        obtain rfl : first = byte := by simpa using hbyte
        obtain rfl : given = target := by simpa using htarget
        rw [if_pos rfl]
        exact lastTarget_zip_of_not_mem (by simpa using hlast)
      | succ k => exact ih (by simpa using hbyte) (by simpa using hlast) (by simpa using htarget)

end Occurrences

/-- With targets for bytes of the alphabet there is a table, and it leads each byte to the target at the
last occurrence of the byte. -/
theorem exists_withMappings (default : Option StateId) {bytes : Bytes}
    {targets : List (Option StateId)} (hlength : bytes.length = targets.length)
    (hin : ∀ byte ∈ bytes, InAlphabet byte) :
    ∃ table, withMappings default bytes targets = some table ∧
      ∀ byte, InAlphabet byte → ∃ target, table.step byte = some target ∧
        (byte ∉ bytes → target = default) ∧
        ∀ k, bytes[k]? = some byte → byte ∉ bytes.drop (k + 1) → targets[k]? = some target := by
  refine ⟨ofTable (Table.ofEntries default (bytes.zip targets)), ?_, ?_⟩
  · apply withMappings_of_forall
    intro entry hentry
    exact hin entry.1 (List.of_mem_zip hentry).1
  · intro byte hbyte
    have hpacked := (Table.wellFormed_ofEntries default (bytes.zip targets)).packed
    refine ⟨_, step_ofTable hpacked byte, ?_⟩
    rw [Table.step_ofEntries, if_pos hbyte]
    refine ⟨lastTarget_zip_of_not_mem, ?_⟩
    intro k hk hlast
    -- there is a target for every byte
    have hlt : k < targets.length := hlength ▸ (List.getElem?_eq_some_iff.1 hk).1
    have htarget : targets[k]? = some targets[k] := List.getElem?_eq_getElem hlt
    rw [lastTarget_zip_of_last hk hlast htarget, htarget]

/-! ### Tables made one after the other -/

/-- The tables that the operations make. -/
inductive Made : ColumnTable → Prop
  | empty : Made empty
  | uniform (target : Option StateId) : Made (uniform target)
  | withMappings {default : Option StateId} {bytes : Bytes} {targets : List (Option StateId)}
      {table : ColumnTable} : withMappings default bytes targets = some table → Made table
  | pack {table : ColumnTable} (row : StepRow) : Made table → Made (table.pack row)
  | addEpsilon {table : ColumnTable} (target : StateId) :
      Made table → Made (table.addEpsilon target)

/-- **What is made are tables in columns**, and of the right form. -/
theorem Made.exists_table {columns : ColumnTable} (h : Made columns) :
    ∃ table : Table, table.WellFormed ∧ columns = ofTable table := by
  -- each operation does to the columns what its counterpart does to the table
  induction h with
  | empty => exact ⟨Table.empty, Table.wellFormed_uniform none, rfl⟩
  | uniform target => exact ⟨_, Table.wellFormed_uniform target, ofTable_uniform target⟩
  | @withMappings default bytes targets columns h =>
    obtain ⟨table, htable, rfl⟩ := withMappings_eq_some_iff.1 h
    obtain rfl := (Table.ofEntries?_eq_ok_iff.1 htable).2
    exact ⟨_, Table.wellFormed_ofEntries default _, rfl⟩
  | pack row _ ih =>
    obtain ⟨table, htable, rfl⟩ := ih
    exact ⟨table.setRow row.toList, htable.setRow row.length_toList, ofTable_pack table row⟩
  | addEpsilon target _ ih =>
    obtain ⟨table, htable, rfl⟩ := ih
    exact ⟨table.addEpsilon target, htable.addEpsilon target, ofTable_addEpsilon table target⟩

/-- **The form of a table in columns.** -/
structure Canonical (table : ColumnTable) : Prop where
  ascending : table.ceilings.Pairwise (· < ·)
  ends_last : table.ceilings.getLast? = some 246
  /-- Each run has a target. -/
  one_each : table.steps.length = table.ceilings.length
  apart : table.steps.IsChain (· ≠ ·)
  epsilons_nodup : table.epsilons.Nodup
  /-- A byte leads to what stands at its place in the row, which packs to the table again. -/
  unpacked : ∃ row, table.unpack = some row ∧ table.pack row = table ∧
    ∀ byte, table.step byte =
      some (if h : byte.toNat < alphabetSize then row[byte.toNat] else none)

theorem canonical_ofTable {table : Table} (h : table.WellFormed) : (ofTable table).Canonical where
  ascending := by
    refine List.pairwise_map.2 ((List.pairwise_cons.1 h.packed.ascending).2.imp_of_mem ?_)
    intro bound bound' hbound hbound' hlt
    rw [UInt8.lt_iff_toNat_lt, toNat_end (h.packed.le_of_mem_ends hbound),
      toNat_end (h.packed.le_of_mem_ends hbound')]
    exact hlt
  ends_last := by
    rw [ofTable, List.getLast?_map, h.packed.ends_last]
    rfl
  one_each := by rw [ofTable, values, ends, List.length_map, List.length_map, List.length_map]
  apart := h.packed.apart
  epsilons_nodup := h.epsilons_nodup
  unpacked := by
    obtain ⟨row, hunpack, hrow, hpack⟩ := pack_unpack_ofTable h.packed
    refine ⟨row, hunpack, hpack, ?_⟩
    intro byte
    rw [step_ofTable h.packed]
    split
    · next hbyte =>
      -- the step is read off the row, at the place of the byte
      have hread := Table.getElem?_row h.packed hbyte
      rw [← hrow, Vector.getElem?_toList, Vector.getElem?_eq_getElem hbyte] at hread
      exact hread.symm
    · next hbyte => rw [Table.step_of_not_inAlphabet h.packed hbyte]

theorem Canonical.eq_of_unpack_eq {table table' : ColumnTable} (h : table.Canonical)
    (h' : table'.Canonical) (heq : table.unpack = table'.unpack) :
    table.ceilings = table'.ceilings ∧ table.steps = table'.steps := by
  -- both are packed from the one row
  obtain ⟨row, hunpack, hpack, -⟩ := h.unpacked
  obtain ⟨row', hunpack', hpack', -⟩ := h'.unpacked
  obtain rfl : row = row' := Option.some.inj (hunpack.symm.trans (heq.trans hunpack'))
  rw [← hpack, ← hpack', pack_eq, pack_eq]
  exact ⟨rfl, rfl⟩

/-- **Tables are a canonical form.** Whatever operations made a table, one after the other,

* it has the form `Canonical`, in which its row packs to it and a byte leads to its place in the row;
* any row that is packed into it is its row from then on;
* a table with the same row has the same columns;
* with targets for bytes of the alphabet, as many as these, a byte leads to the target at its last
  occurrence, or to the default;
* and it is the table of the right form whose runs stand in its columns, with the row and the steps of
  that one. -/
theorem tables_are_canonical :
    (∀ table, Made table → table.Canonical) ∧
      (∀ (table : ColumnTable) (row : StepRow), (table.pack row).unpack = some row) ∧
      (∀ table table', Made table → Made table' → table.unpack = table'.unpack →
        table.ceilings = table'.ceilings ∧ table.steps = table'.steps) ∧
      (∀ (default : Option StateId) (bytes : Bytes) (targets : List (Option StateId)),
        bytes.length = targets.length → (∀ byte ∈ bytes, InAlphabet byte) →
        ∃ table, withMappings default bytes targets = some table ∧
          ∀ byte, InAlphabet byte → ∃ target, table.step byte = some target ∧
            (byte ∉ bytes → target = default) ∧
            ∀ k, bytes[k]? = some byte → byte ∉ bytes.drop (k + 1) → targets[k]? = some target) ∧
      ∀ columns, Made columns → ∃ table : Table, table.WellFormed ∧ columns = ofTable table ∧
        columns.unpack.map Vector.toList = some table.row ∧
        ∀ byte, columns.step byte = some (table.step byte) := by
  have hcanonical : ∀ table, Made table → table.Canonical := by
    intro columns h
    obtain ⟨table, htable, rfl⟩ := h.exists_table
    exact canonical_ofTable htable
  refine ⟨hcanonical, unpack_pack, ?_, ?_, ?_⟩
  · intro table table' h h'
    exact (hcanonical table h).eq_of_unpack_eq (hcanonical table' h')
  · intro default bytes targets hlength hin
    exact exists_withMappings default hlength hin
  · intro columns h
    obtain ⟨table, htable, rfl⟩ := h.exists_table
    obtain ⟨row, hunpack, hrow⟩ := unpack_ofTable htable.packed
    exact ⟨table, htable, rfl, by rw [hunpack, Option.map_some, hrow], step_ofTable htable.packed⟩

/-- The byte 98 is given a target twice, and the terminator is carved out of the default: the run that
ends with the alphabet is the last place of the row. -/
theorem tables_are_canonical_unsorted :
    let made := withMappings (some 7) [98, 245, 97, 98] [some 1, none, some 2, some 2]
    made = some ⟨[97, 99, 245, 246], [some 7, some 2, some 7, none], []⟩ ∧
      ∃ table, made = some table ∧ table.Canonical ∧ table.step 98 = some (some 2) ∧
        table.step 250 = some none := by
  intro made
  have hmade : made = some ⟨[97, 99, 245, 246], [some 7, some 2, some 7, none], []⟩ := by
    decide +kernel
  refine ⟨hmade, _, hmade, tables_are_canonical.1 _ (.withMappings hmade), ?_, ?_⟩
  · rfl
  · rfl

end ColumnTable

end ByteMatch
