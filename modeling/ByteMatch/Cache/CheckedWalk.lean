import ByteMatch.Cache.Context
import ByteMatch.CheckedWalk

/-!
# Walking through a cache with every look-up checked

What is kept in a cache are numbers: the members of a set are states of the automaton that was walked
when the set was kept, moves and the start are numbers of other sets, and an edition is known by its
identity. In another automaton, or once the sets are gone, the same numbers lead elsewhere or nowhere.

The walks of `Cache.traverse` look up the set that a step is taken from, and take the members of a kept
set to be states of the automaton. The walks here take nothing for granted: each member is looked up
before it is stepped from, each set before its payloads are read, its members are walked on from, or a
move is recorded in it, and what is cached is walked only for the edition under which it is kept.
-/

namespace ByteMatch

variable {α : Type}

/-! ### Kept sets -/

/-- The move on `byte`, if it has been worked out. There is one entry for each byte that an automaton
reads. -/
def Subset.checkedMove (subset : Subset α) (byte : UInt8) : Except Fault (Option (Option Nat)) :=
  if InAlphabet byte then .ok (subset.moves.lookup byte) else .error (.byteOutsideAlphabet byte)

namespace SubsetDfa

/-- The set that is kept under this number. -/
def lookUp (dfa : SubsetDfa α) (index : Nat) : Except Fault (Subset α) :=
  match dfa.subsets[index]? with
  | none => .error (.subsetOutside index)
  | some subset => .ok subset

/-- `keep` with every look-up checked. -/
def checkedKeep [DecidableEq α] (dfa : SubsetDfa α) (fa : Automaton α) (members : List StateId) :
    Except Fault (SubsetDfa α) := do
  let payloads ← members.flatMapM fun member => Node.payloads <$> fa.lookUp member
  return { dfa with
    subsets := dfa.subsets.push ⟨members, payloads.eraseDups, []⟩
    index := (members, dfa.size) :: dfa.index }

/-- `record` with every look-up checked. -/
def checkedRecord (dfa : SubsetDfa α) (source : Nat) (byte : UInt8) (target : Option Nat) :
    Except Fault (SubsetDfa α) := do
  let subset ← dfa.lookUp source
  let _ ← subset.checkedMove byte
  return dfa.record source byte target

end SubsetDfa

namespace Automaton

/-- The closure of the state to which `byte` leads from a state; empty if it leads nowhere. -/
def closureBehind (fa : Automaton α) (byte : UInt8) (state : StateId) :
    Except Fault (List StateId) := do
  match ← fa.visit byte state with
  | (_, none) => return []
  | (_, some next) => fa.lookUpClosure next

/-- `successors` with every look-up checked. -/
def checkedSuccessors (fa : Automaton α) (states : List StateId) (byte : UInt8) :
    Except Fault (List StateId) :=
  StateSet.sorted <$> states.flatMapM (fa.closureBehind byte)

end Automaton

namespace Cache

/-- `record` with every look-up checked. -/
def checkedRecord (cache : Cache α) (source : Nat) (byte : UInt8) (target : Option Nat) :
    Except Fault (Cache α) := do
  let dfa ← cache.dfa.checkedRecord source byte target
  return { cache with dfa := dfa }

variable [DecidableEq α]

/-- `locate` with every look-up checked. -/
def checkedLocate (cache : Cache α) (fa : Automaton α) (members : List StateId) :
    Except Fault (Option Nat × Cache α) :=
  match cache.dfa.find? members with
  | some index => .ok (some index, cache)
  | none =>
    match cache.budget.reserve? with
    | none => .ok (none, { cache with budget := cache.budget.disable })
    | some budget => do
      let dfa ← cache.dfa.checkedKeep fa members
      return (some cache.dfa.size, ⟨dfa, budget⟩)

/-- `locateStart` with every look-up checked. -/
def checkedLocateStart (cache : Cache α) (fa : Automaton α) :
    Except Fault (Option Nat × Cache α) :=
  match cache.dfa.start with
  | some index => .ok (some index, cache)
  | none => do
    let closure ← fa.lookUpClosure fa.start
    match ← cache.checkedLocate fa (StateSet.sorted closure) with
    | (none, cache) => return (none, cache)
    | (some index, cache) => return (some index, { cache with dfa.start := some index })

/-- `workOut` with every look-up checked. -/
def checkedWorkOut (cache : Cache α) (fa : Automaton α) (source : Nat) (members : List StateId)
    (byte : UInt8) : Except Fault (Move × Cache α) := do
  match ← fa.checkedSuccessors members byte with
  | [] =>
    let cache ← cache.checkedRecord source byte none
    return (.dead, cache)
  | next =>
    match ← cache.checkedLocate fa next with
    | (none, cache) => return (.exhausted, cache)
    | (some target, cache) =>
      let cache ← cache.checkedRecord source byte (some target)
      return (.to target, cache)

/-- `step` with every look-up checked. -/
def checkedStep (cache : Cache α) (fa : Automaton α) (source : Nat) (byte : UInt8) :
    Except Fault (Move × Cache α) :=
  if ¬ InAlphabet byte then .ok (.dead, cache)
  else do
    let subset ← cache.dfa.lookUp source
    match ← subset.checkedMove byte with
    | some (some target) => return (.to target, { cache with budget := cache.budget.hit })
    | some none => return (.dead, { cache with budget := cache.budget.hit })
    | none =>
      let cache := { cache with budget := cache.budget.miss }
      cache.checkedWorkOut fa source subset.members byte

/-- `trail` with every look-up checked. -/
def checkedTrail (fa : Automaton α) (threshold : Nat) :
    Cache α → (source : Nat) → Bytes → Except Fault (List α × Cache α)
  | cache, _, [] => .ok ([], cache)
  | cache, source, byte :: rest => do
    match ← cache.checkedStep fa source byte with
    | (.dead, cache) => return ([], cache)
    | (.exhausted, cache) =>
      let subset ← cache.dfa.lookUp source
      let found ← fa.checkedSetTrail threshold subset.members (byte :: rest)
      return (found, cache)
    | (.to target, cache) =>
      let subset ← cache.dfa.lookUp target
      let (found, cache) ← checkedTrail fa threshold cache target rest
      return (subset.payloads ++ found, cache)

/-- `traverse` with every look-up checked. -/
def checkedTraverse (cache : Cache α) (fa : Automaton α) (threshold : Nat) (value : Bytes)
    (incoming : List α) : Except Fault (List α × Cache α) := do
  match ← cache.checkedLocateStart fa with
  | (none, cache) =>
    let found ← fa.checkedSetTrail threshold [fa.start] (symbols value)
    return (collect incoming found, cache)
  | (some source, cache) =>
    let subset ← cache.dfa.lookUp source
    let (found, cache) ← checkedTrail fa threshold cache source (symbols value)
    return (collect incoming (subset.payloads ++ found), cache)

end Cache

/-! ### Contexts -/

/-- `Cache.checkedTraverse` for what is cached for one edition, which has to be the one to be
walked. -/
def CachedEdition.checkedTraverse [DecidableEq α] (edition : CachedEdition α) (budget : Budget)
    (snapshot : Snapshot α) (threshold : Nat) (value : Bytes) (incoming : List α) :
    Except Fault (List α × Cache α) :=
  if edition.id = snapshot.id then
    Cache.checkedTraverse ⟨edition.dfa, budget⟩ snapshot.automaton threshold value incoming
  else .error (.editionMismatch edition.id snapshot.id)

namespace Context

/-- `traverse` with every look-up checked. -/
def checkedTraverse [DecidableEq α] (ctx : Context α) (fa : Automaton α) (value : Bytes)
    (incoming : List α) : Except Fault (List α) :=
  fa.checkedTraverse ctx.config.threshold value incoming

/-- What is cached for the lineage, made anew and what was cached before given back if it was cached
for another edition. -/
def openEdition (ctx : Context α) (snapshot : Snapshot α) :
    Except Fault (CachedEdition α × Budget) :=
  let edition := (ctx.caches.lookup snapshot.lineage).getD ⟨snapshot.id, SubsetDfa.empty⟩
  if edition.id = snapshot.id then .ok (edition, ctx.budget)
  else do
    let budget ← ctx.budget.release edition.dfa.size
    return (⟨snapshot.id, SubsetDfa.empty⟩, budget)

/-- `traverseCached` with every look-up checked. -/
def checkedTraverseCached [DecidableEq α] (ctx : Context α) (snapshot : Snapshot α)
    (value : Bytes) (incoming : List α) : Except Fault (List α × Context α) := do
  if snapshot.automaton.deterministic || ctx.budget.disabled then
    let found ← ctx.checkedTraverse snapshot.automaton value incoming
    return (found, ctx)
  else
    let (edition, budget) ← ctx.openEdition snapshot
    let (found, cache) ←
      edition.checkedTraverse budget snapshot ctx.config.threshold value incoming
    return (found, ctx.closeCache snapshot cache)

end Context

end ByteMatch
