import ByteMatch.Cache.BufferedContext
import ByteMatch.Matcher

/-!
# Calls on a context

What a caller can ask of a context, and what it is told. A context serves calls one after the other,
and so does a context with buffers; a call in which a rule is broken is a fault, and the calls behind
it are not served.
-/

namespace ByteMatch

variable {α : Type}

/-- What can be asked of a context. -/
inductive Call (α : Type) where
  /-- Walks a value without the cache. -/
  | traverse (fa : Automaton α) (value : Bytes) (incoming : List α)
  /-- Walks a value through the cache. -/
  | traverseCached (snapshot : Snapshot α) (value : Bytes) (incoming : List α)
  /-- Matches a value against the patterns of a matcher. -/
  | matchValue (matcher : Matcher α) (value : Bytes) (incoming : List α)
  /-- Asks for the state of the cache. -/
  | stats
  /-- Clears the cache. -/
  | clear

/-- What a caller is told. -/
inductive Reply (α : Type) where
  /-- The payloads found. -/
  | found (payloads : List α)
  /-- The state of the cache. -/
  | stats (stats : Stats)
  /-- The cache has been cleared. -/
  | cleared
deriving DecidableEq, Repr

variable [DecidableEq α]

/-- Serves calls one after the other, each in the state that the one before it has left. -/
def serveAll {σ : Type} (serve : σ → Call α → Except Fault (Reply α × σ)) :
    σ → List (Call α) → Except Fault (List (Reply α) × σ)
  | state, [] => .ok ([], state)
  | state, call :: calls => do
    let (reply, state) ← serve state call
    let (replies, last) ← serveAll serve state calls
    return (reply :: replies, last)

namespace Context

/-- Serves a call. -/
def serve (ctx : Context α) : Call α → Except Fault (Reply α × Context α)
  | .traverse fa value incoming => do
    let found ← ctx.traverse fa value incoming
    return (.found found, ctx)
  | .traverseCached snapshot value incoming => do
    let (found, ctx) ← ctx.traverseCached snapshot value incoming
    return (.found found, ctx)
  | .matchValue matcher value incoming => do
    let (found, ctx) ← matcher.matchValue ctx value incoming
    return (.found found, ctx)
  | .stats => .ok (.stats ctx.stats, ctx)
  | .clear => .ok (.cleared, ctx.clear)

end Context

/-- `matchValue` with buffers. -/
def Matcher.matchValueIn (matcher : Matcher α) (ctx : BufferedContext α) (value : Bytes)
    (incoming : List α) : Except Fault (List α × BufferedContext α) :=
  let known := collect incoming (matcher.scanned value)
  if matcher.united = 0 then .ok (known, ctx)
  else ctx.traverseCached matcher.snapshot value known

namespace BufferedContext

/-- Serves a call. -/
def serve (ctx : BufferedContext α) : Call α → Except Fault (Reply α × BufferedContext α)
  | .traverse fa value incoming => do
    let (found, ctx) ← ctx.traverse fa value incoming
    return (.found found, ctx)
  | .traverseCached snapshot value incoming => do
    let (found, ctx) ← ctx.traverseCached snapshot value incoming
    return (.found found, ctx)
  | .matchValue matcher value incoming => do
    let (found, ctx) ← matcher.matchValueIn ctx value incoming
    return (.found found, ctx)
  | .stats => .ok (.stats ctx.stats, ctx)
  | .clear => .ok (.cleared, ctx.clear)

end BufferedContext

end ByteMatch
