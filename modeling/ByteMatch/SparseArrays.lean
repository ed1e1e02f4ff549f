import ByteMatch.SparseSet

/-!
# Sparse sets in bare arrays

The two arrays of a `SparseSet` and the number of its members, with nothing that holds them
together. A place that an operation looks at or writes to may not be there, and then the operation
has no result. In a place that is there anything may stand: emptying the set leaves all that was
written before, and only the way in which the arrays are used tells what of it still counts.

Calls are served one after the other, by bare arrays (`SparseArrays.serveAll`) as by a `SparseSet`
(`SparseSet.serveAll`).
-/

namespace ByteMatch

/-! ### Calls -/

/-- What can be asked of a set of numbers. -/
inductive SetCall where
  /-- Adds a number. -/
  | insert (x : Nat)
  /-- Asks whether a number is a member. -/
  | contains (x : Nat)
  /-- Empties the set. -/
  | clear
deriving DecidableEq, Repr

/-- What a caller is told. -/
inductive SetReply where
  /-- The number has been added, or was a member already. -/
  | inserted (new : Bool)
  /-- Whether the number is a member. -/
  | contains (member : Bool)
  /-- The set has been emptied. -/
  | cleared
deriving DecidableEq, Repr

/-- The number that a call names, if it names one, is below the bound. -/
def SetCall.Below (n : Nat) : SetCall → Prop
  | .insert x => x < n
  | .contains x => x < n
  | .clear => True

instance (n : Nat) : DecidablePred (SetCall.Below n)
  | .insert x => inferInstanceAs (Decidable (x < n))
  | .contains x => inferInstanceAs (Decidable (x < n))
  | .clear => inferInstanceAs (Decidable True)

/-! ### Bare arrays -/

/-- A set of numbers in two arrays. -/
structure SparseArrays where
  /-- The members, in the first `size` places. -/
  dense : Array Nat
  /-- For each member, its place in `dense`. -/
  sparse : Array Nat
  /-- The number of members. -/
  size : Nat
deriving DecidableEq, Repr

namespace SparseArrays

/-- The empty set, with room for the numbers below `n`. -/
def empty (n : Nat) : SparseArrays := ⟨Array.replicate n 0, Array.replicate n 0, 0⟩

/-- Whether `x` is a member. -/
def contains (s : SparseArrays) (x : Nat) : Option Bool :=
  match s.sparse[x]? with
  | none => none
  | some k => if k < s.size then s.dense[k]?.map (· == x) else some false

/-- Adds `x` unless it is a member, and tells whether it was not. -/
def insert (s : SparseArrays) (x : Nat) : Option (Bool × SparseArrays) :=
  match s.contains x with
  | none => none
  | some true => some (false, s)
  | some false =>
    if h : s.size < s.dense.size ∧ x < s.sparse.size then
      some (true, ⟨s.dense.set s.size x h.1, s.sparse.set x s.size h.2, s.size + 1⟩)
    else none

/-- Forgets all members. -/
def clear (s : SparseArrays) : SparseArrays := { s with size := 0 }

/-- Serves a call. -/
def serve (s : SparseArrays) : SetCall → Option (SetReply × SparseArrays)
  | .insert x => (s.insert x).map fun (new, s) => (.inserted new, s)
  | .contains x => (s.contains x).map fun member => (.contains member, s)
  | .clear => some (.cleared, s.clear)

/-- Serves calls one after the other, each by the arrays that the one before it has left. -/
def serveAll : SparseArrays → List SetCall → Option (List SetReply × SparseArrays)
  | s, [] => some ([], s)
  | s, call :: calls => do
    let (reply, s) ← s.serve call
    let (replies, last) ← serveAll s calls
    return (reply :: replies, last)

/-- The arrays of a set. -/
def ofSet {n : Nat} (set : SparseSet n) : SparseArrays :=
  ⟨set.dense.toArray, set.sparse.toArray, set.size⟩

end SparseArrays

/-! ### Sets -/

namespace SparseSet

variable {n : Nat}

/-- Serves a call. -/
def serve (set : SparseSet n) : SetCall → SetReply × SparseSet n
  | .insert x => (.inserted (set.insert x).1, (set.insert x).2)
  | .contains x => (.contains (set.contains x), set)
  | .clear => (.cleared, set.clear)

/-- Serves calls one after the other. -/
def serveAll : SparseSet n → List SetCall → List SetReply × SparseSet n
  | set, [] => ([], set)
  | set, call :: calls =>
    ((set.serve call).1 :: (serveAll (set.serve call).2 calls).1,
      (serveAll (set.serve call).2 calls).2)

end SparseSet

end ByteMatch
