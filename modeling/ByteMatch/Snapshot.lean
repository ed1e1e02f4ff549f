import ByteMatch.Union

/-!
# Published automata

An automaton that has been published has an identity: no two publications share one, and a copy of a
publication keeps it, so equal identities mean equal automata. A union continues the lineage of its
left side, which is how one tells a new edition of an automaton from an unrelated one.
-/

namespace ByteMatch

/-- A published automaton. -/
structure Snapshot (α : Type) where
  id : Nat
  /-- The identity of the first edition of this automaton. -/
  lineage : Nat
  automaton : Automaton α

namespace Snapshot

variable {α : Type}

/-- Publishes a new automaton. -/
def first (id : Nat) (automaton : Automaton α) : Snapshot α := ⟨id, id, automaton⟩

/-- Publishes the union of a published automaton and another one as the next edition of it. -/
def extend [DecidableEq α] (snapshot : Snapshot α) (id : Nat) (automaton : Automaton α) :
    Snapshot α :=
  ⟨id, snapshot.lineage, snapshot.automaton.union automaton⟩

end Snapshot

end ByteMatch
