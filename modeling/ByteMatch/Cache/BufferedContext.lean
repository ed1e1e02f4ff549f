import ByteMatch.Buffers
import ByteMatch.Cache.Context

/-!
# Contexts with their buffers

A context makes all of its walks in the same buffers. In a walk through the cache the second list of
states is where successors are put together; the first one is not used unless the walk goes on
without the cache.
-/

namespace ByteMatch

variable {α : Type}

namespace Buffers

/-- Puts down all that epsilon edges lead to from where `byte` leads from a state. -/
def gatherFrom (fa : Automaton α) (byte : UInt8) (buffers : Buffers α) (state : StateId) :
    Except Fault (Buffers α) :=
  match fa.step state byte with
  | none => .ok buffers
  | some target => do
    fa.requireStates [target]
    return { buffers with next := buffers.next ++ fa.closure target }

/-- Puts together the states to which `byte` leads from those listed, and all that epsilon edges lead
to from there. -/
def gather (buffers : Buffers α) (fa : Automaton α) (states : List StateId) (byte : UInt8) :
    Except Fault (Buffers α) :=
  states.foldlM (gatherFrom fa byte) { buffers with next := [] }

end Buffers

namespace Cache

variable [DecidableEq α]

/-- `workOut` in buffers. -/
def workOutIn (cache : Cache α) (fa : Automaton α) (source : Nat) (members : List StateId)
    (byte : UInt8) (buffers : Buffers α) : Except Fault (Move × Cache α × Buffers α) := do
  let buffers ← buffers.gather fa members byte
  if buffers.next.isEmpty then return (.dead, cache.record source byte none, buffers)
  else
    let buffers := { buffers with next := StateSet.sorted buffers.next }
    match cache.locate fa buffers.next with
    | (none, cache) => return (.exhausted, cache, buffers)
    | (some target, cache) =>
      return (.to target, cache.record source byte (some target), buffers)

/-- `step` in buffers. -/
def stepIn (cache : Cache α) (fa : Automaton α) (source : Nat) (byte : UInt8)
    (buffers : Buffers α) : Except Fault (Move × Cache α × Buffers α) :=
  if ¬ InAlphabet byte then .ok (.dead, cache, buffers)
  else
    match cache.dfa.subsets[source]? with
    | none => .error (.subsetOutside source)
    | some subset =>
      match subset.moves.lookup byte with
      | some (some target) =>
        .ok (.to target, { cache with budget := cache.budget.hit }, buffers)
      | some none => .ok (.dead, { cache with budget := cache.budget.hit }, buffers)
      | none =>
        { cache with budget := cache.budget.miss }.workOutIn fa source subset.members byte buffers

/-- `trail` in buffers. -/
def trailIn (fa : Automaton α) (threshold : Nat) :
    Cache α → Buffers α → (source : Nat) → Bytes → Except Fault (Cache α × Buffers α)
  | cache, buffers, _, [] => .ok (cache, buffers)
  | cache, buffers, source, byte :: rest => do
    match ← cache.stepIn fa source byte buffers with
    | (.dead, cache, buffers) => return (cache, buffers)
    | (.exhausted, cache, buffers) =>
      let buffers ← { buffers with current := cache.dfa.membersOf source }.walkSets fa threshold
        (byte :: rest)
      return (cache, buffers)
    | (.to target, cache, buffers) =>
      trailIn fa threshold cache (buffers.add (cache.dfa.payloadsOf target)) target rest

/-- `traverse` in buffers. -/
def traverseIn (cache : Cache α) (fa : Automaton α) (threshold : Nat) (value : Bytes)
    (incoming : List α) (buffers : Buffers α) : Except Fault (List α × Cache α × Buffers α) := do
  let prepared := buffers.prepare incoming
  match cache.locateStart fa with
  | (none, cache) =>
    let walked ← { prepared with current := prepared.current ++ [fa.start] }.walkSets fa threshold
      (symbols value)
    let (found, buffers) := walked.take
    return (found, cache, buffers)
  | (some source, cache) =>
    let (cache, walked) ←
      trailIn fa threshold cache (prepared.add (cache.dfa.payloadsOf source)) source
        (symbols value)
    let (found, buffers) := walked.take
    return (found, cache, buffers)

end Cache

/-- A context and the buffers in which it walks. -/
structure BufferedContext (α : Type) where
  context : Context α
  buffers : Buffers α
deriving Repr

namespace BufferedContext

/-- A context that has not walked anything. -/
def ofConfig (config : Config) : BufferedContext α := ⟨Context.ofConfig config, Buffers.empty⟩

/-- The state of the cache. -/
def stats (ctx : BufferedContext α) : Stats := ctx.context.stats

/-- Forgets everything cached. The buffers stay as they are. -/
def clear (ctx : BufferedContext α) : BufferedContext α := { ctx with context := ctx.context.clear }

variable [DecidableEq α]

/-- Walks without the cache. -/
def traverse (ctx : BufferedContext α) (fa : Automaton α) (value : Bytes) (incoming : List α) :
    Except Fault (List α × BufferedContext α) := do
  let (found, buffers) ← fa.traverseIn ctx.context.config.threshold value incoming ctx.buffers
  return (found, { ctx with buffers := buffers })

/-- Walks through the cache, unless the automaton has no epsilon edges or caching is off. -/
def traverseCached (ctx : BufferedContext α) (snapshot : Snapshot α) (value : Bytes)
    (incoming : List α) : Except Fault (List α × BufferedContext α) := do
  if snapshot.automaton.deterministic || ctx.context.budget.disabled then
    ctx.traverse snapshot.automaton value incoming
  else
    let cache ← ctx.context.openCache snapshot
    let (found, cache, buffers) ← cache.traverseIn snapshot.automaton ctx.context.config.threshold
      value incoming ctx.buffers
    return (found, ⟨ctx.context.closeCache snapshot cache, buffers⟩)

end BufferedContext

end ByteMatch
