import ByteMatch.Cache.Context
import ByteMatch.Text.Record

/-!
# Descriptions

One-line descriptions of states, of graphs and of contexts, for a reader who looks into them.
-/

namespace ByteMatch

/-- A state by its number, a missing one by a number that no state has. -/
def describeState (state : Option StateId) : String :=
  "StateId(" ++ toString (state.getD 4294967295) ++ ")"

/-- A step table in run-length form. -/
def Table.describe (table : Table) : String :=
  Text.record "SmallTable" [
    ("ceilings", Text.sequence (table.steps.map fun run => toString run.1)),
    ("steps", Text.sequence (table.steps.values.map describeState)),
    ("epsilons", Text.sequence (table.epsilons.map fun e => describeState (some e)))]

variable {α : Type}

/-- A state with its epsilon closure. -/
def Node.describe (node : Node α) (closure : List StateId) : String :=
  Text.record "FaState" [
    ("table", node.table.describe),
    ("field_transitions_count", toString node.payloads.length),
    ("epsilon_closure", Text.sequence (closure.map fun e => describeState (some e)))]

/-- A list of states by its length. -/
def describeNodes (nodes : List (Node α)) : String :=
  Text.record "StateArena" [("states_count", toString nodes.length)]

/-- The settings that were made. -/
def Config.describe (config : Config) : String :=
  Text.record "Config" [
    ("cache_capacity", Text.optional config.cacheCapacity),
    ("dedupe_sort_threshold", Text.optional config.dedupeThreshold)]

/-- A budget and its counts. -/
def Budget.describe (budget : Budget) : String :=
  Text.record "CacheBudget" [
    ("capacity", toString budget.capacity),
    ("used", toString budget.used),
    ("disabled", Text.truth budget.disabled),
    ("creates", toString budget.creates),
    ("hits", toString budget.hits),
    ("misses", toString budget.misses)]

/-- A context with its settings, the number of its caches and its budget. -/
def Context.describe (ctx : Context α) : String :=
  Text.record "ExecutionContext" [
    ("config", ctx.config.describe),
    ("caches", toString ctx.caches.length),
    ("budget", ctx.budget.describe)]

end ByteMatch
