import ByteMatch.Table

/-!
# Tables in columns

The runs of a `Table` can also be kept in two columns, the ends of the runs in one and their targets in
the other, with a byte for each end. A table in columns is made by loops over a row of all bytes:

* `ColumnTable.pack` goes through the row once and ends a run where the target changes;
* `ColumnTable.unpack` goes through the runs and writes each of them into a row of dead ends;
* `ColumnTable.withMappings` writes the targets into a row and packs it;
* `ColumnTable.step` looks for the first run that ends above the byte.

Nothing holds the two columns together but the way in which they are made. So where a place is looked
up in a column or in a row, it may not be there, and then there is no result.
-/

namespace ByteMatch

theorem alphabetSize_pos : 0 < alphabetSize := by decide

/-- A target for each byte of the alphabet. -/
abbrev StepRow := Vector (Option StateId) alphabetSize

/-- A table with its runs in two columns. -/
structure ColumnTable where
  /-- The exclusive end of each run. -/
  ceilings : List UInt8
  /-- Where the bytes of each run lead. -/
  steps : List (Option StateId)
  /-- Where the epsilon edges lead. -/
  epsilons : List StateId
deriving DecidableEq, Repr

namespace ColumnTable

/-- The end of the last run. -/
def ceiling : UInt8 := UInt8.ofNat alphabetSize

/-- The table that leads every byte to the same target. -/
def uniform (target : Option StateId) : ColumnTable := ⟨[ceiling], [target], []⟩

/-- The table in which every byte is a dead end. -/
def empty : ColumnTable := uniform none

/-- Adds an epsilon edge, unless there is one to that target already. -/
def addEpsilon (table : ColumnTable) (target : StateId) : ColumnTable :=
  if target ∈ table.epsilons then table
  else { table with epsilons := table.epsilons ++ [target] }

/-! ### Packing -/

/-- The runs that have ended, and the target of the run that goes on. -/
structure Packing where
  current : Option StateId
  ceilings : List UInt8
  steps : List (Option StateId)

/-- Takes the target at a place, which ends the run that goes on if it is another one. -/
def Packing.take (packing : Packing) (entry : Option StateId × Nat) : Packing :=
  if entry.1 = packing.current then packing
  else ⟨entry.1, packing.ceilings ++ [UInt8.ofNat entry.2], packing.steps ++ [packing.current]⟩

/-- Gives the table the runs of a row, and leaves the epsilon edges. -/
def pack (table : ColumnTable) (row : StepRow) : ColumnTable :=
  let packing := row.toList.zipIdx.foldl Packing.take ⟨row.get ⟨0, alphabetSize_pos⟩, [], []⟩
  { table with
    ceilings := packing.ceilings ++ [ceiling]
    steps := packing.steps ++ [packing.current] }

/-! ### Unpacking -/

/-- Writes the target of the run at place `k` into the row, from place `i` up to `bound`. -/
def fill (steps : List (Option StateId)) (k bound : Nat) (row : StepRow) (i : Nat) :
    Option (StepRow × Nat) :=
  if i < bound then
    match steps[k]? with
    | none => none
    | some target =>
      if h : i < alphabetSize then fill steps k bound (row.set i target) (i + 1) else none
  else some (row, i)
termination_by bound - i

/-- Writes the runs into the row, the first of which is that at place `k` and begins at place `i`. -/
def unpackFrom (steps : List (Option StateId)) :
    List UInt8 → Nat → StepRow → Nat → Option StepRow
  | [], _, row, _ => some row
  | bound :: ceilings, k, row, i =>
    match fill steps k bound.toNat row i with
    | none => none
    | some (row, i) => unpackFrom steps ceilings (k + 1) row i

/-- The row of the table. -/
def unpack (table : ColumnTable) : Option StepRow :=
  unpackFrom table.steps table.ceilings 0 (Vector.replicate alphabetSize none) 0

/-! ### Looking up -/

/-- Looks for the first run that ends above the byte; the first in the list is that at place `k`. -/
def stepFrom (steps : List (Option StateId)) (byte : UInt8) :
    List UInt8 → Nat → Option (Option StateId)
  | [], _ => some none
  | bound :: ceilings, k => if byte < bound then steps[k]? else stepFrom steps byte ceilings (k + 1)

/-- Where `byte` leads. -/
def step (table : ColumnTable) (byte : UInt8) : Option (Option StateId) :=
  stepFrom table.steps byte table.ceilings 0

/-! ### Mappings -/

/-- Writes targets into a row. -/
def mapBytes : List (UInt8 × Option StateId) → StepRow → Option StepRow
  | [], row => some row
  | (byte, target) :: entries, row =>
    if h : byte.toNat < alphabetSize then mapBytes entries (row.set byte.toNat target) else none

/-- The table that leads each of `bytes` to the target at the same place in `targets`, and every other
byte to `default`. -/
def withMappings (default : Option StateId) (bytes : Bytes) (targets : List (Option StateId)) :
    Option ColumnTable :=
  (mapBytes (bytes.zip targets) (Vector.replicate alphabetSize default)).map empty.pack

/-- The table with its runs in columns. -/
def ofTable (table : Table) : ColumnTable :=
  ⟨table.steps.ends.map UInt8.ofNat, table.steps.values, table.epsilons⟩

end ColumnTable

end ByteMatch
