import ByteMatch.Proofs.BufferedWalks

/-!
# Walking one state at a time

In an automaton without epsilon edges a walk is never in more than one state, and two walks can be
made: the one from state to state, and the one through sets of states, which never have more than one
member then. They list the same payloads in the same order, or come to the same fault
(`Automaton.setTrail_singleton`), whatever the threshold from which on sets are sorted:

* a state is its own closure (`Automaton.closure_eq_singleton`), so nothing is added when a set is
  expanded;
* a byte leads to one state or none, and neither leaves anything to sort.

In buffers the two walks put payloads down at different moments. The walk from state to state does so
when it comes to a state; the walk through sets does so when it leaves one, and has a last round to
make for the states in which it stops. `Automaton.state_walk_lists_what_set_walk_lists` says that this
does not show.
-/

namespace ByteMatch

variable {α : Type}

namespace Automaton

variable {fa : Automaton α} {s : StateId}

/-- A closure lists each state once. -/
theorem nodup_closure (fa : Automaton α) (hs : s < fa.size) : (fa.closure s).Nodup := by
  obtain ⟨empty, -, hclosure⟩ := fa.exists_epsilonClosures_eq hs
  rw [closure, fa.closures_eq, hclosure]
  exact SparseSet.nodup_toList _

/-- Without epsilon edges a state is its own closure. -/
theorem closure_eq_singleton (hdet : fa.deterministic = true) (hs : s < fa.size) :
    fa.closure s = [s] := by
  -- nothing is reached without reading but the state itself
  have hmem : ∀ t, t ∈ fa.closure s ↔ t ∈ [s] := by
    intro t
    rw [fa.mem_closure_iff hs, path_nil_iff_of_deterministic hdet, List.mem_singleton]
  have hperm : (fa.closure s).Perm [s] :=
    (List.perm_ext_iff_of_nodup (fa.nodup_closure hs) (List.nodup_singleton s)).2 hmem
  exact List.perm_singleton.1 hperm

private theorem closureAll_singleton (hdet : fa.deterministic = true) (hs : s < fa.size) :
    fa.closureAll [s] = [s] := by
  rw [closureAll, List.flatMap_singleton, closure_eq_singleton hdet hs]

private theorem payloadsAll_singleton (fa : Automaton α) (s : StateId) :
    fa.payloadsAll [s] = fa.payloads s := List.flatMap_singleton _ _

/-! ### The two walks -/

/-- **The walk through sets is the walk from state to state** in an automaton without epsilon edges,
from any of its states on: the same payloads in the same order, or the same fault. -/
theorem setTrail_singleton (hdet : fa.deterministic = true) (threshold : Nat) (hs : s < fa.size)
    (bytes : Bytes) : fa.setTrail threshold [s] bytes = fa.trail s bytes := by
  -- the set stays a single state, which is there: a step to one that is not ends both walks
  induction bytes generalizing s with
  | nil => rw [setTrail, trail, closureAll_singleton hdet hs, payloadsAll_singleton]
  | cons b rest ih =>
    rw [setTrail, trail, closureAll_singleton hdet hs, payloadsAll_singleton]
    cases hstep : fa.step s b with
    | none =>
      have hnext : fa.stepAll [s] b = [] := stepAll_cons_of_none hstep []
      rw [hnext, StateSet.distinct_nil]
    | some n =>
      have hnext : fa.stepAll [s] b = [n] := stepAll_cons_of_some hstep []
      rw [hnext, StateSet.distinct_singleton]
      dsimp only
      cases hrequire : fa.requireStates [n] with
      | error e => rfl
      | ok =>
        have hn : n < fa.size := requireStates_eq_ok_iff.1 hrequire n List.mem_cons_self
        rw [ih hn]

/-- A walk in buffers that comes out as one without them lists what that one lists. -/
theorem exists_buffers_left {work : Except Fault (List α × Buffers α)} {found : List α}
    (h : SameOutcome (fun walked found => walked.1 = found) work (.ok found)) :
    ∃ left, work = .ok (found, left) := by
  obtain ⟨⟨walked, left⟩, hwalked, rfl⟩ := h.symm.exists_ok
  exact ⟨left, hwalked⟩

variable [DecidableEq α]

theorem traverseSets_eq_traverseStates (hdet : fa.deterministic = true) (threshold : Nat)
    (value : Bytes) (incoming : List α) :
    fa.traverseSets threshold value incoming = fa.traverseStates value incoming := by
  rw [traverseSets, traverseStates, setTrail_singleton hdet threshold fa.start_lt]

/-- So a walk may always be taken for the one through sets of states. -/
theorem traverse_eq_traverseSets (fa : Automaton α) (threshold : Nat) (value : Bytes)
    (incoming : List α) :
    fa.traverse threshold value incoming = fa.traverseSets threshold value incoming := by
  unfold traverse
  split
  · next hdet => exact (traverseSets_eq_traverseStates hdet threshold value incoming).symm
  · rfl

/-- **One state at a time is enough.** In an automaton without epsilon edges whose steps stay inside,
every value is walked to the end from state to state as well as through sets of states, and both walks
give one and the same list: whatever comes in, whatever the threshold from which on sets are sorted,
whatever the buffers of the two walks hold when they begin, and through a context as well. -/
theorem state_walk_lists_what_set_walk_lists (hdet : fa.deterministic = true)
    (inside : fa.StepsInside) (value : Bytes) (incoming : List α) :
    ∃ found, fa.traverseStates value incoming = .ok found ∧
      (∀ threshold, fa.traverseSets threshold value incoming = .ok found) ∧
      (∀ buffers, ∃ left, fa.traverseStatesIn value incoming buffers = .ok (found, left)) ∧
      (∀ threshold buffers, ∃ left,
        fa.traverseSetsIn threshold value incoming buffers = .ok (found, left)) ∧
      ∀ ctx : Context α, ctx.traverse fa value incoming = .ok found := by
  obtain ⟨found, hfound⟩ := traverseSets_isOk inside 0 value incoming
  rw [traverseSets_eq_traverseStates hdet] at hfound
  have hsets : ∀ threshold, fa.traverseSets threshold value incoming = .ok found := by
    intro threshold
    rw [traverseSets_eq_traverseStates hdet, hfound]
  refine ⟨found, hfound, hsets, ?_, ?_, ?_⟩
  · intro buffers
    -- whatever the buffers hold, they are emptied before the walk
    have halike := fa.traverseStatesIn_alike value incoming buffers
    rw [hfound] at halike
    exact exists_buffers_left halike
  · intro threshold buffers
    have halike := fa.traverseSetsIn_alike threshold value incoming buffers
    rw [hsets threshold] at halike
    exact exists_buffers_left halike
  · -- a context takes the walk from state to state here
    intro ctx
    rw [Context.traverse, traverse, if_pos hdet, hfound]

/-- What begins with `a`, united with the value `ab`: the payload of the beginning is met on the way,
that of the value at the end, in this order. -/
theorem state_walk_lists_what_set_walk_lists_beginning :
    let fa : Automaton Nat := (Literal.whole [97, 98] 1).union (Literal.beginning [97] 2)
    fa.deterministic = true ∧ fa.StepsInside ∧
      fa.traverseStates [97, 98] [7, 7] = .ok [7, 2, 1] ∧
      ∀ threshold, fa.traverseSets threshold [97, 98] [7, 7] = .ok [7, 2, 1] := by
  intro fa
  have hdet : fa.deterministic = true := by decide +kernel
  have inside : fa.StepsInside := stepsInside_of_runs (by decide +kernel)
  have hrun : fa.traverseStates [97, 98] [7, 7] = .ok [7, 2, 1] := by decide +kernel
  obtain ⟨found, hstates, hsets, -⟩ :=
    state_walk_lists_what_set_walk_lists hdet inside [97, 98] [7, 7]
  obtain rfl : [7, 2, 1] = found := Except.ok.inj (hrun.symm.trans hstates)
  exact ⟨hdet, inside, hrun, hsets⟩

end Automaton

end ByteMatch
