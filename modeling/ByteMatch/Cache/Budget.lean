import ByteMatch.Fault

/-!
# The budget of a cache

One budget covers everything that a context caches. Every cached state set takes one from it; when a
state set is to be taken and none is left, caching is switched off, and stays off until the whole
cache is cleared. The budget also counts what has been created and how look-ups went.
-/

namespace ByteMatch

/-- What may be cached, what is, and what was counted. -/
structure Budget where
  /-- The number of state sets that may be held at a time. -/
  capacity : Nat
  /-- The number of state sets held. -/
  used : Nat
  /-- Whether caching is switched off. -/
  disabled : Bool
  /-- State sets ever created. -/
  creates : Nat
  /-- Look-ups answered from the cache. -/
  hits : Nat
  /-- Look-ups that had to be worked out. -/
  misses : Nat
deriving DecidableEq, Repr

namespace Budget

/-- A budget of which nothing is used. -/
def ofCapacity (capacity : Nat) : Budget := ⟨capacity, 0, false, 0, 0, 0⟩

/-- Takes one state set out of the budget; `none` if caching is off or the budget is used up. -/
def reserve? (budget : Budget) : Option Budget :=
  if budget.disabled ∨ budget.capacity ≤ budget.used then none
  else some { budget with used := budget.used + 1, creates := budget.creates + 1 }

/-- Switches caching off. -/
def disable (budget : Budget) : Budget := { budget with disabled := true }

/-- Gives back the state sets of a cache that is dropped. -/
def release (budget : Budget) (states : Nat) : Except Fault Budget :=
  if states ≤ budget.used then .ok { budget with used := budget.used - states }
  else .error (.overRelease budget.used states)

/-- Gives everything back and switches caching on. The counts stay. -/
def reset (budget : Budget) : Budget := { budget with used := 0, disabled := false }

/-- Counts a look-up that was answered from the cache. -/
def hit (budget : Budget) : Budget := { budget with hits := budget.hits + 1 }

/-- Counts a look-up that was not. -/
def miss (budget : Budget) : Budget := { budget with misses := budget.misses + 1 }

end Budget

end ByteMatch
