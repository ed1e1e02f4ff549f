/-!
# Tuning

What a caller may set about walks. A knob that was not set reads as its default, but setting a knob
to its default is still told apart from not setting it.
-/

namespace ByteMatch

/-- The knobs that were set. -/
structure Config where
  cacheCapacity : Option Nat
  dedupeThreshold : Option Nat
deriving DecidableEq, Repr

namespace Config

/-- Nothing is set. -/
def default : Config := ⟨none, none⟩

/-- The number of state sets a context may cache. -/
def capacity (config : Config) : Nat := config.cacheCapacity.getD 1000

/-- The length above which a list of states is sorted to find duplicates. -/
def threshold (config : Config) : Nat := config.dedupeThreshold.getD 500

/-- Sets the number of state sets a context may cache. -/
def setCapacity (config : Config) (states : Nat) : Config :=
  { config with cacheCapacity := some states }

/-- Sets the length above which a list of states is sorted. -/
def setThreshold (config : Config) (states : Nat) : Config :=
  { config with dedupeThreshold := some states }

end Config

end ByteMatch
