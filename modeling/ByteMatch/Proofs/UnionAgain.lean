import ByteMatch.Pattern
import ByteMatch.Proofs.UnionAssociativity
import ByteMatch.Proofs.UnionStates

/-!
# Uniting again changes nothing

What has no epsilon edges can be added to an automaton a second time without a trace: `(a ∪ b) ∪ b`
is `a ∪ b`, with the same states under the same numbers.

The second union meets `b` only where the first one has it. It begins with the name of the pair of
start states and the start of `b`; and if it stands at the name of a pair and at the right state of
that same pair, then a byte takes it to the name of the next pair and to the right state of that one.
So the pairs of the first union can be relabelled to those of the second one (`Union.relabels_again`):
each becomes its name together with its own right state (`Union.again`).

An epsilon edge of `b` would break this: it splits off a walk in `b` alone, and the second union has
two of these to split off, one from `b` itself and one from the name of the pair.
-/

namespace ByteMatch

variable {α : Type} [DecidableEq α]

/-- What has been appended once need not be appended again. -/
private theorem eraseDups_append_again (xs ys : List α) :
    ((xs ++ ys).eraseDups ++ ys).eraseDups = (xs ++ ys).eraseDups := by
  -- all of `ys` is there already when it is appended again
  have hcarried : ys.removeAll (xs ++ ys) = [] := by
    rw [List.removeAll, List.filter_eq_nil_iff]
    intro y hy
    simp [hy]
  calc ((xs ++ ys).eraseDups ++ ys).eraseDups
      = (xs ++ ys ++ ys).eraseDups := eraseDups_append_left _ _
    _ = (xs ++ ys).eraseDups ++ (ys.removeAll (xs ++ ys)).eraseDups := List.eraseDups_append
    _ = (xs ++ ys).eraseDups := by rw [hcarried, List.eraseDups_nil, List.append_nil]

namespace Automaton

namespace Union

variable {a b : Automaton α}

omit [DecidableEq α] in
/-- The pair which the second union is at when the first one is at `p`. -/
def again (a b : Automaton α) (p : StatePair) : StatePair := ⟨nameOf a b p, p.right⟩

omit [DecidableEq α] in
/-- All epsilon edges of a pair are those of `a`, and end the walk in `b`. -/
private theorem epsilons_of_deterministic (a : Automaton α) (hdet : b.deterministic = true)
    (p : StatePair) :
    epsilons a b p = (a.tableAt p.left).epsilons.map fun e => ⟨some e, none⟩ := by
  rw [epsilons, epsilons_tableAt_eq_nil hdet, List.map_nil, List.append_nil]

/-- **Uniting again is going on in step**: pair by pair, the second union does what the first one
does. -/
theorem relabels_again (a : Automaton α) (hdet : b.deterministic = true) :
    Blueprint.Relabels (again a b) (Known a b) (blueprint a b) (blueprint (a.union b) b) where
  keepsApart p q hp hq heq := keepsApart_nameOf a b p q hp hq (congrArg StatePair.left heq)
  valid_start := known_start a b
  valid_dead := known_dead a b
  valid_after _ hp _ hbyte := known_after hp hbyte
  valid_epsilons _ hp _ hq := known_of_mem_epsilons hp hq
  start_eq := by
    have hstart : nameOf a b (blueprint a b).start = some (a.union b).start := nameOf_start a b
    rw [again, hstart]
    rfl
  dead_eq := rfl
  after_eq p hp byte hbyte := by
    have hname : (a.union b).stepFrom (nameOf a b p) byte = nameOf a b (after a b p byte) :=
      stepFrom_nameOf hp hbyte
    exact congrArg (fun name => (⟨name, b.stepFrom p.right byte⟩ : StatePair)) hname
  epsilons_eq p hp := by
    -- with no walk left in `b`, the names of the pairs are all there is
    have hagain : (epsilons a b p).map (again a b) =
        (epsilons a b p).map fun q => ⟨nameOf a b q, none⟩ := by
      rw [epsilons_of_deterministic a hdet, List.map_map, List.map_map]
      rfl
    calc epsilons (a.union b) b (again a b p)
        = ((a.union b).tableAt (nameOf a b p)).epsilons.map fun e => ⟨some e, none⟩ :=
          epsilons_of_deterministic (a.union b) hdet (again a b p)
      _ = (epsilons a b p).map fun q => ⟨nameOf a b q, none⟩ :=
        map_epsilons_nameOf (fun name => (⟨name, none⟩ : StatePair)) hp
      _ = (epsilons a b p).map (again a b) := hagain.symm
  payloads_eq p hp := by
    have hname : (a.union b).payloadsAt (nameOf a b p) =
        (a.payloadsAt p.left ++ b.payloadsAt p.right).eraseDups := payloadsAt_nameOf hp
    calc ((a.union b).payloadsAt (nameOf a b p) ++ b.payloadsAt p.right).eraseDups
        = ((a.payloadsAt p.left ++ b.payloadsAt p.right).eraseDups ++
            b.payloadsAt p.right).eraseDups := by rw [hname]
      _ = (a.payloadsAt p.left ++ b.payloadsAt p.right).eraseDups := eraseDups_append_again _ _

end Union

/-- What has no epsilon edges is united with an automaton once. -/
theorem union_union_self (a : Automaton α) {b : Automaton α} (hdet : b.deterministic = true) :
    (a.union b).union b = a.union b := by
  -- both are built from the pairs of `a` and `b`
  have hagain := (Union.relabels_again a hdet).builds (Union.builds_union (a.union b) b)
  apply ext_of_nodes (hagain.unique (Union.builds_union a b))
  rw [Union.start_union, Union.start_union]

/-- The automaton of `*` has an epsilon edge, and uniting it again adds two states. -/
example :
    let a : Automaton Nat := Literal.whole [97] 1
    let b : Automaton Nat := Glob.automaton [.star] 2
    (a.union b).size = 6 ∧ ((a.union b).union b).size = 8 := by decide +kernel

end Automaton

namespace Snapshot

/-- **Extending again changes nothing.** If a published automaton has been extended by one without
epsilon edges, then extending it by that one again, under whatever identity, gives an edition of the
same lineage with the same automaton: start, states and closures are equal, number by number and entry
by entry. -/
theorem extend_again (a b : Snapshot α) (hdet : b.automaton.deterministic = true)
    (idOnce idTwice : Nat) :
    let once := a.extend idOnce b.automaton
    let twice := once.extend idTwice b.automaton
    twice.lineage = once.lineage ∧ twice.automaton = once.automaton :=
  ⟨rfl, Automaton.union_union_self a.automaton hdet⟩

/-- The words with `a` and `b` in this order, extended twice by the word `ab`. -/
theorem extend_again_literal :
    let a : Snapshot Nat := .first 1 (Glob.automaton [.star, .byte 97, .star, .byte 98] 10)
    let b : Snapshot Nat := .first 2 (Literal.whole [97, 98] 20)
    let once := a.extend 3 b.automaton
    let twice := once.extend 4 b.automaton
    b.automaton.deterministic = true ∧ twice.lineage = once.lineage ∧
      twice.automaton = once.automaton := by
  intro a b
  have hdet : b.automaton.deterministic = true := by decide +kernel
  exact ⟨hdet, extend_again a b hdet 3 4⟩

end Snapshot

end ByteMatch
