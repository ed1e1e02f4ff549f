import ByteMatch.Walk

/-!
# Buffers

A walk can be made in buffers that are kept for the next one: two lists of states, which take turns
in holding the states that the walk is in, and the payloads collected so far. A walk empties them
when it begins. At its end it hands out the payloads; the lists of states are left as they are.
-/

namespace ByteMatch

variable {α : Type}

/-! ### Collecting payloads -/

/-- Payloads once each, in the order in which they were added. -/
structure PayloadSet (α : Type) where
  /-- The payloads added, to tell whether one has been. -/
  seen : List α
  /-- The payloads in order, to be handed out. -/
  items : List α
deriving Repr

namespace PayloadSet

def empty : PayloadSet α := ⟨[], []⟩

/-- Adds a payload, unless it has been added before. -/
def insert [DecidableEq α] (set : PayloadSet α) (payload : α) : PayloadSet α :=
  if payload ∈ set.seen then set else ⟨payload :: set.seen, set.items ++ [payload]⟩

/-- Adds payloads one after the other. -/
def add [DecidableEq α] (set : PayloadSet α) (payloads : List α) : PayloadSet α :=
  payloads.foldl insert set

/-- Forgets the payloads. -/
def clear (set : PayloadSet α) : PayloadSet α := { set with seen := [], items := [] }

/-- Hands out the payloads and forgets them. -/
def take (set : PayloadSet α) : List α × PayloadSet α := (set.items, set.clear)

end PayloadSet

/-! ### Walking in buffers -/

/-- What is kept from one walk to the next. -/
structure Buffers (α : Type) where
  /-- The states that the walk is in. -/
  current : List StateId
  /-- The states that it comes to next. -/
  next : List StateId
  payloads : PayloadSet α
deriving Repr

namespace Buffers

def empty : Buffers α := ⟨[], [], PayloadSet.empty⟩

/-- Empties the buffers. -/
def clear (buffers : Buffers α) : Buffers α :=
  { buffers with current := [], next := [], payloads := buffers.payloads.clear }

/-- Hands out the payloads at the end of a walk. -/
def take (buffers : Buffers α) : List α × Buffers α :=
  let (found, payloads) := buffers.payloads.take
  (found, { buffers with payloads := payloads })

variable [DecidableEq α]

/-- Adds payloads to those collected. -/
def add (buffers : Buffers α) (payloads : List α) : Buffers α :=
  { buffers with payloads := buffers.payloads.add payloads }

/-- Buffers for a walk in which the payloads `incoming` are known already. -/
def prepare (buffers : Buffers α) (incoming : List α) : Buffers α := buffers.clear.add incoming

/-- Comes through a state: its payloads are added, and the state to which `byte` leads is put down
as one to come to next. -/
def visit (fa : Automaton α) (byte : UInt8) (buffers : Buffers α) (state : StateId) : Buffers α :=
  let buffers := buffers.add (fa.payloads state)
  match fa.step state byte with
  | none => buffers
  | some next => { buffers with next := buffers.next ++ [next] }

/-- Walks from a state on, whose own payloads have been added. -/
def walkStates (fa : Automaton α) : Buffers α → StateId → Bytes → Except Fault (Buffers α)
  | buffers, _, [] => .ok buffers
  | buffers, state, byte :: rest =>
    match fa.step state byte with
    | none => .ok buffers
    | some next => do
      fa.requireStates [next]
      walkStates fa (buffers.add (fa.payloads next)) next rest

/-- Walks from the current states on. -/
def walkSets (fa : Automaton α) (threshold : Nat) :
    Buffers α → Bytes → Except Fault (Buffers α)
  | buffers, [] =>
    .ok <| buffers.current.foldl
      (fun buffers state => (fa.closure state).foldl (fun b s => b.add (fa.payloads s)) buffers)
      buffers
  | buffers, byte :: rest =>
    if buffers.current.isEmpty then .ok buffers
    else do
      let visited := buffers.current.foldl
        (fun buffers state => (fa.closure state).foldl (visit fa byte) buffers)
        { buffers with next := [] }
      let next := StateSet.distinct threshold visited.next
      fa.requireStates next
      walkSets fa threshold { visited with current := next, next := visited.current } rest

end Buffers

namespace Automaton

variable [DecidableEq α]

/-- `traverse` in buffers. -/
def traverseIn (fa : Automaton α) (threshold : Nat) (value : Bytes) (incoming : List α)
    (buffers : Buffers α) : Except Fault (List α × Buffers α) :=
  let prepared := buffers.prepare incoming
  if fa.deterministic then
    Buffers.take <$>
      (prepared.add (fa.payloads fa.start)).walkStates fa fa.start (symbols value)
  else
    Buffers.take <$>
      { prepared with current := prepared.current ++ [fa.start] }.walkSets fa threshold
        (symbols value)

/-- `traverseStates` in buffers: the walk from state to state, whatever the automaton. -/
def traverseStatesIn (fa : Automaton α) (value : Bytes) (incoming : List α) (buffers : Buffers α) :
    Except Fault (List α × Buffers α) :=
  let prepared := buffers.prepare incoming
  Buffers.take <$> (prepared.add (fa.payloads fa.start)).walkStates fa fa.start (symbols value)

/-- `traverseSets` in buffers: the walk through sets of states, whatever the automaton. -/
def traverseSetsIn (fa : Automaton α) (threshold : Nat) (value : Bytes) (incoming : List α)
    (buffers : Buffers α) : Except Fault (List α × Buffers α) :=
  let prepared := buffers.prepare incoming
  Buffers.take <$>
    { prepared with current := prepared.current ++ [fa.start] }.walkSets fa threshold (symbols value)

end Automaton

end ByteMatch
