import ByteMatch.Alphabet
import ByteMatch.Fault
import ByteMatch.Runs

/-!
# Step tables

What one state of an automaton does with what it reads: for every byte of the alphabet a state to go
to, or none, held in run-length form, and besides the epsilon edges, which are taken without
reading.
-/

namespace ByteMatch

/-- The number of a state in its automaton. -/
abbrev StateId := Nat

/-- The steps and the epsilon edges out of a state. -/
structure Table where
  /-- Where each byte of the alphabet leads, `none` being a dead end. -/
  steps : Runs (Option StateId)
  /-- Where the epsilon edges lead, each target once, in the order added. -/
  epsilons : List StateId
deriving DecidableEq, Repr

namespace Table

/-- The table that leads every byte to the same target. -/
def uniform (target : Option StateId) : Table := ⟨[(alphabetSize, target)], []⟩

/-- The table in which every byte is a dead end. -/
def empty : Table := uniform none

/-- The target that `entries` give to the byte of number `i`: that of the last entry for it, or
`default` if there is none. -/
def lastTarget (default : Option StateId) (entries : List (UInt8 × Option StateId)) (i : Nat) :
    Option StateId :=
  entries.foldl (fun target entry => if entry.1.toNat = i then entry.2 else target) default

/-- The table that leads each byte named in `entries` to its target there, the last entry for a byte
being the one that counts, and every other byte to `default`. -/
def ofEntries (default : Option StateId) (entries : List (UInt8 × Option StateId)) : Table :=
  ⟨Runs.tabulate alphabetSize (entries.flatMap fun entry => [entry.1.toNat, entry.1.toNat + 1])
    (lastTarget default entries), []⟩

/-- `ofEntries`, refusing entries for bytes outside the alphabet. -/
def ofEntries? (default : Option StateId) (entries : List (UInt8 × Option StateId)) :
    Except Fault Table :=
  match entries.find? fun entry => ¬ InAlphabet entry.1 with
  | some entry => .error (.byteOutsideAlphabet entry.1)
  | none => .ok (ofEntries default entries)

/-- Where the byte of number `i` leads. A number outside the alphabet leads nowhere. -/
def target (table : Table) (i : Nat) : Option StateId := (table.steps.get? i).getD none

/-- Where `byte` leads. A byte outside the alphabet leads nowhere. -/
def step (table : Table) (byte : UInt8) : Option StateId := table.target byte.toNat

/-- The steps byte by byte. -/
def row (table : Table) : List (Option StateId) := table.steps.toRow

/-- Gives the table new steps, byte by byte, and leaves the epsilon edges. -/
def setRow (table : Table) (row : List (Option StateId)) : Table :=
  { table with steps := Runs.ofRow row }

/-- Adds an epsilon edge, unless there is one to that target already. -/
def addEpsilon (table : Table) (target : StateId) : Table :=
  if target ∈ table.epsilons then table
  else { table with epsilons := table.epsilons ++ [target] }

end Table

end ByteMatch
