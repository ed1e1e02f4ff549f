import ByteMatch.Automaton

/-!
# Hand-made automata

Automata need not come from patterns: they can be put together from states that are made one by one,
numbered in the order of their list. Steps may lead anywhere, but a table is refused if it names a
byte that no automaton reads, and the whole if its start or an epsilon edge is not among the states.
-/

namespace ByteMatch

variable {α : Type}

/-- A state made by hand. -/
inductive NodeDraft (α : Type) where
  /-- A state that leads nowhere. -/
  | leaf (payloads : List α)
  /-- A state without payloads: where bytes lead by default, where some of them lead, and epsilon
  edges. -/
  | table (default : Option StateId) (entries : List (UInt8 × Option StateId))
      (epsilons : List StateId)
deriving DecidableEq, Repr

/-- The state that was asked for. -/
def NodeDraft.node [DecidableEq α] : NodeDraft α → Except Fault (Node α)
  | leaf payloads => .ok ⟨Table.empty, payloads.eraseDups⟩
  | table default entries epsilons => do
    let steps ← Table.ofEntries? default entries
    return ⟨epsilons.foldl Table.addEpsilon steps, []⟩

/-- The automaton of hand-made states, which are numbered in the order of the list. -/
def Automaton.ofDrafts [DecidableEq α] (drafts : List (NodeDraft α)) (start : Option StateId) :
    Except Fault (Automaton α) := do
  let nodes ← drafts.mapM NodeDraft.node
  let graph ← Graph.ofNodes nodes.toArray start
  return graph.seal

end ByteMatch
