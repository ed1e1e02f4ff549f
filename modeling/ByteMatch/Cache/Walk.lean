import ByteMatch.Cache.Budget
import ByteMatch.Cache.SubsetDfa
import ByteMatch.Walk

/-!
# Walking through a cache

A walk through a cache goes from one kept set of states to the next. What it needs and does not find
it works out and keeps, each set taking one from the budget; when the budget has none left in the
middle of a value, the rest of the value is walked without the cache from the set reached so far.
-/

namespace ByteMatch

variable {α : Type}

/-- The sets kept for one automaton, and the budget that they are taken from. -/
structure Cache (α : Type) where
  dfa : SubsetDfa α
  budget : Budget

/-- Where a look-up leads. -/
inductive Move where
  /-- To the set of this number. -/
  | to (index : Nat)
  /-- Nowhere. -/
  | dead
  /-- To a set for which the budget has no room. -/
  | exhausted
deriving DecidableEq, Repr

/-- The set to which `byte` leads from the states listed, as its ascending list of members. -/
def Automaton.successors (fa : Automaton α) (states : List StateId) (byte : UInt8) :
    Except Fault (List StateId) := do
  let targets := fa.stepAll states byte
  fa.requireStates targets
  return StateSet.sorted (fa.closureAll targets)

namespace Cache

/-- Records a move that was worked out. -/
def record (cache : Cache α) (source : Nat) (byte : UInt8) (target : Option Nat) : Cache α :=
  { cache with dfa := cache.dfa.record source byte target }

variable [DecidableEq α]

/-- The number of the set with these members, which is kept from now on if it was not before and the
budget allows it. -/
def locate (cache : Cache α) (fa : Automaton α) (members : List StateId) :
    Option Nat × Cache α :=
  match cache.dfa.find? members with
  | some index => (some index, cache)
  | none =>
    match cache.budget.reserve? with
    | none => (none, { cache with budget := cache.budget.disable })
    | some budget => (some cache.dfa.size, ⟨cache.dfa.keep fa members, budget⟩)

/-- The number of the set in which every walk begins. -/
def locateStart (cache : Cache α) (fa : Automaton α) : Option Nat × Cache α :=
  match cache.dfa.start with
  | some index => (some index, cache)
  | none =>
    match cache.locate fa (StateSet.sorted (fa.closure fa.start)) with
    | (none, cache) => (none, cache)
    | (some index, cache) => (some index, { cache with dfa.start := some index })

/-- Works out where `byte` leads from the set `source`, which has the members listed. -/
def workOut (cache : Cache α) (fa : Automaton α) (source : Nat) (members : List StateId)
    (byte : UInt8) : Except Fault (Move × Cache α) := do
  match ← fa.successors members byte with
  | [] => return (.dead, cache.record source byte none)
  | next =>
    match cache.locate fa next with
    | (none, cache) => return (.exhausted, cache)
    | (some target, cache) => return (.to target, cache.record source byte (some target))

/-- Where `byte` leads from the set `source`. Bytes that no automaton reads are not looked up. -/
def step (cache : Cache α) (fa : Automaton α) (source : Nat) (byte : UInt8) :
    Except Fault (Move × Cache α) :=
  if ¬ InAlphabet byte then .ok (.dead, cache)
  else
    match cache.dfa.subsets[source]? with
    | none => .error (.subsetOutside source)
    | some subset =>
      match subset.moves.lookup byte with
      | some (some target) => .ok (.to target, { cache with budget := cache.budget.hit })
      | some none => .ok (.dead, { cache with budget := cache.budget.hit })
      | none =>
        { cache with budget := cache.budget.miss }.workOut fa source subset.members byte

/-- The payloads met from the set `source` on, those of `source` itself left out. -/
def trail (fa : Automaton α) (threshold : Nat) :
    Cache α → (source : Nat) → Bytes → Except Fault (List α × Cache α)
  | cache, _, [] => .ok ([], cache)
  | cache, source, byte :: rest => do
    match ← cache.step fa source byte with
    | (.dead, cache) => return ([], cache)
    | (.exhausted, cache) =>
      let found ← fa.setTrail threshold (cache.dfa.membersOf source) (byte :: rest)
      return (found, cache)
    | (.to target, cache) =>
      let here := cache.dfa.payloadsOf target
      let (found, cache) ← trail fa threshold cache target rest
      return (here ++ found, cache)

/-- The payloads that `value` collects, behind those that came in. -/
def traverse (cache : Cache α) (fa : Automaton α) (threshold : Nat) (value : Bytes)
    (incoming : List α) : Except Fault (List α × Cache α) := do
  match cache.locateStart fa with
  | (none, cache) =>
    let found ← fa.setTrail threshold [fa.start] (symbols value)
    return (collect incoming found, cache)
  | (some source, cache) =>
    let here := cache.dfa.payloadsOf source
    let (found, cache) ← trail fa threshold cache source (symbols value)
    return (collect incoming (here ++ found), cache)

end Cache

end ByteMatch
