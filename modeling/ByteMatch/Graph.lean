import ByteMatch.Table

/-!
# State graphs

A graph of numbered states with a start, in which no epsilon edge leads outside. (A step may lead to
a state that is not there; that is found out only when it is taken.) `Graph.ofNodes` makes one of
hand-made states and refuses what breaks these rules.

Patterns are built back to front, from the state in which a match ends to the start: `Graph.accept`
begins with the matched state, and each `prepend` puts one more state in front of the start, with
the next free number.
-/

namespace ByteMatch

/-- One state: where it leads, and the payloads that a value collects by reaching it. -/
structure Node (α : Type) where
  table : Table
  payloads : List α
deriving DecidableEq, Repr

/-- Numbered states, one of them the start. -/
structure Graph (α : Type) where
  nodes : Array (Node α)
  start : StateId
  start_lt : start < nodes.size
  epsilons_lt : ∀ node ∈ nodes, ∀ e ∈ node.table.epsilons, e < nodes.size

namespace Graph

variable {α : Type}

/-- The graph of the given states, unless `start` or the target of an epsilon edge is not among
them. -/
def ofNodes (nodes : Array (Node α)) (start : Option StateId) : Except Fault (Graph α) :=
  match start with
  | none => .error (.startOutside none)
  | some start =>
    if hs : start < nodes.size then
      if he : ∀ node ∈ nodes, ∀ e ∈ node.table.epsilons, e < nodes.size then
        .ok ⟨nodes, start, hs, he⟩
      else .error .epsilonOutside
    else .error (.startOutside (some start))

/-- A single state that leads nowhere, with the given payloads. -/
def single (payloads : List α) : Graph α where
  nodes := #[⟨Table.empty, payloads⟩]
  start := 0
  start_lt := by simp
  epsilons_lt := by simp [Table.empty, Table.uniform]

/-- The state on which a successful match lands. -/
def accept (payload : α) : Graph α := single [payload]

/-- Puts a new start in front of the old one, with a table whose epsilon edges lead to states that
are there already or to the new start itself. -/
def prepend (g : Graph α) (table : Table) (h : ∀ e ∈ table.epsilons, e ≤ g.nodes.size) :
    Graph α where
  nodes := g.nodes.push ⟨table, []⟩
  start := g.nodes.size
  start_lt := by simp
  epsilons_lt := by
    intro node hnode e he
    rw [Array.size_push]
    rcases Array.mem_push.1 hnode with hold | rfl
    · exact Nat.lt_succ_of_lt (g.epsilons_lt node hold e he)
    · exact Nat.lt_succ_of_le (h e he)

/-- Puts a new start in front that leads each byte named in `entries` to its target there, the last
entry for a byte being the one that counts, and every other byte to `default`. -/
def prependSteps (g : Graph α) (default : Option StateId)
    (entries : List (UInt8 × Option StateId)) : Graph α :=
  g.prepend (Table.ofEntries default entries) (by simp [Table.ofEntries])

/-- Asks for one more byte in front. A byte that no automaton reads cannot be asked for: then the
new start is a dead end. -/
def prependByte (g : Graph α) (byte : UInt8) : Graph α :=
  g.prependSteps none (if InAlphabet byte then [(byte, some g.start)] else [])

/-- Allows any number of bytes in front: the new start keeps to itself on every byte but the
terminator, and an epsilon edge leaves it for the old start. -/
def prependStar (g : Graph α) : Graph α :=
  g.prepend
    ((Table.ofEntries (some g.nodes.size) [(terminator, none)]).addEpsilon g.start)
    (by simpa [Table.addEpsilon, Table.ofEntries] using Nat.le_of_lt g.start_lt)

/-- Asks for each of the bytes in turn in front. -/
def prependBytes (g : Graph α) (bytes : Bytes) : Graph α :=
  bytes.foldr (fun byte g => g.prependByte byte) g

/-- Asks for the end of the value in front. -/
def prependEnd (g : Graph α) : Graph α := g.prependSteps none [(terminator, some g.start)]

end Graph

end ByteMatch
