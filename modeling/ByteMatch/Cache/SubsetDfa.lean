import ByteMatch.Automaton

/-!
# Deterministic automata of state sets

Where a walk is in a set of states, the sets that it comes through can be kept, each with its
payloads and with those of its moves that have been worked out; a later walk then follows the moves.
A set is kept as the ascending list of its members and is always closed under epsilon edges.
-/

namespace ByteMatch

variable {α : Type}

/-- A set of states that has been kept. -/
structure Subset (α : Type) where
  /-- The states in ascending order. -/
  members : List StateId
  /-- The payloads of the states, each once. -/
  payloads : List α
  /-- The moves worked out so far: for a byte the number of the next set, or `none` if the byte
  leads nowhere. -/
  moves : List (UInt8 × Option Nat)
deriving DecidableEq, Repr

/-- The sets of states of one automaton that have been kept, numbered as they came. -/
structure SubsetDfa (α : Type) where
  subsets : Array (Subset α)
  /-- The numbers of the sets, to be looked up by their members. -/
  index : List (List StateId × Nat)
  /-- The number of the set in which every walk begins, once it is kept. -/
  start : Option Nat
deriving Repr

namespace SubsetDfa

/-- Nothing is kept. -/
def empty : SubsetDfa α := ⟨#[], [], none⟩

/-- The number of sets kept. -/
def size (dfa : SubsetDfa α) : Nat := dfa.subsets.size

/-- The members of a set; none if it is not kept. -/
def membersOf (dfa : SubsetDfa α) (index : Nat) : List StateId :=
  (dfa.subsets[index]?.map (·.members)).getD []

/-- The payloads of a set; none if it is not kept. -/
def payloadsOf (dfa : SubsetDfa α) (index : Nat) : List α :=
  (dfa.subsets[index]?.map (·.payloads)).getD []

/-- The number of the set with these members, if it is kept. -/
def find? (dfa : SubsetDfa α) (members : List StateId) : Option Nat :=
  dfa.index.lookup members

/-- Keeps the set of states with these members, none of its moves being worked out. -/
def keep [DecidableEq α] (dfa : SubsetDfa α) (fa : Automaton α) (members : List StateId) :
    SubsetDfa α :=
  { dfa with
    subsets := dfa.subsets.push ⟨members, (fa.payloadsAll members).eraseDups, []⟩
    index := (members, dfa.size) :: dfa.index }

/-- Records a move that was worked out. -/
def record (dfa : SubsetDfa α) (source : Nat) (byte : UInt8) (target : Option Nat) : SubsetDfa α :=
  { dfa with
    subsets := dfa.subsets.modify source fun s => { s with moves := (byte, target) :: s.moves } }

end SubsetDfa

end ByteMatch
