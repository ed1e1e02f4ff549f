import ByteMatch.Cache.Walk
import ByteMatch.Config
import ByteMatch.Snapshot

/-!
# Contexts

A context is what one caller walks with: its settings, and what it has cached. It keeps one
automaton of state sets for each lineage that it has walked; when it meets another edition of a
lineage, it drops what it had and begins anew. All of them share the context's budget.
-/

namespace ByteMatch

variable {α : Type}

/-- What is cached for one edition of a lineage. -/
structure CachedEdition (α : Type) where
  /-- The edition walked. -/
  id : Nat
  dfa : SubsetDfa α
deriving Repr

/-- Settings and cache of one caller. -/
structure Context (α : Type) where
  config : Config
  /-- What is cached for each lineage. -/
  caches : List (Nat × CachedEdition α)
  budget : Budget
deriving Repr

/-- What a context tells about its cache. -/
structure Stats where
  /-- The number of lineages for which something is cached. -/
  caches : Nat
  /-- The number of state sets held. -/
  states : Nat
  creates : Nat
  hits : Nat
  misses : Nat
  disabled : Bool
deriving DecidableEq, Repr

namespace Context

/-- A context that has not walked anything. -/
def ofConfig (config : Config) : Context α := ⟨config, [], Budget.ofCapacity config.capacity⟩

/-- The state of the cache. -/
def stats (ctx : Context α) : Stats where
  caches := ctx.caches.length
  states := ctx.budget.used
  creates := ctx.budget.creates
  hits := ctx.budget.hits
  misses := ctx.budget.misses
  disabled := ctx.budget.disabled

/-- Forgets everything cached. -/
def clear (ctx : Context α) : Context α := { ctx with caches := [], budget := ctx.budget.reset }

/-- Walks without the cache. -/
def traverse [DecidableEq α] (ctx : Context α) (fa : Automaton α) (value : Bytes)
    (incoming : List α) : Except Fault (List α) :=
  fa.traverse ctx.config.threshold value incoming

/-- Keeps `edition` as what is cached for `lineage`. -/
def store (lineage : Nat) (edition : CachedEdition α) :
    List (Nat × CachedEdition α) → List (Nat × CachedEdition α)
  | [] => [(lineage, edition)]
  | (l, e) :: rest =>
    if l = lineage then (l, edition) :: rest else (l, e) :: store lineage edition rest

/-- What is cached for this very edition, what was cached for another one being given back. -/
def openCache (ctx : Context α) (snapshot : Snapshot α) : Except Fault (Cache α) :=
  match ctx.caches.lookup snapshot.lineage with
  | none => .ok ⟨SubsetDfa.empty, ctx.budget⟩
  | some edition =>
    if edition.id = snapshot.id then .ok ⟨edition.dfa, ctx.budget⟩
    else do
      let budget ← ctx.budget.release edition.dfa.size
      return ⟨SubsetDfa.empty, budget⟩

/-- Keeps what is cached for this edition. -/
def closeCache (ctx : Context α) (snapshot : Snapshot α) (cache : Cache α) : Context α :=
  { ctx with
    caches := store snapshot.lineage ⟨snapshot.id, cache.dfa⟩ ctx.caches
    budget := cache.budget }

/-- Walks through the cache, unless the automaton has no epsilon edges or caching is off. -/
def traverseCached [DecidableEq α] (ctx : Context α) (snapshot : Snapshot α) (value : Bytes)
    (incoming : List α) : Except Fault (List α × Context α) := do
  if snapshot.automaton.deterministic || ctx.budget.disabled then
    let found ← ctx.traverse snapshot.automaton value incoming
    return (found, ctx)
  else
    let cache ← ctx.openCache snapshot
    let (found, cache) ←
      cache.traverse snapshot.automaton ctx.config.threshold value incoming
    return (found, ctx.closeCache snapshot cache)

end Context

end ByteMatch
