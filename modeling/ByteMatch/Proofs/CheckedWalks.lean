import ByteMatch.CheckedWalk
import ByteMatch.Proofs.CanonicalTables
import ByteMatch.Proofs.DistinctStates
import ByteMatch.Proofs.Subsets

/-!
# Checking every look-up makes no difference to a walk

A walk that checks every look-up comes out as the walk that does not, with the same payloads in the same
order or with the same fault: `Automaton.checkedTraverse_eq`, for every automaton whose tables have the
form that they should, wherever its steps may lead. So the one fault that a walk in such an automaton can
come to is that a step leads outside, and the walk that checks no more than this stops at the same
state.

State by state there are two cases. What begins by looking up a state that is there gives what the
automaton holds for it, because its closure is one of its own states and its table has a target for each
run; and what begins by looking up another one faults. A list of states is therefore worked through to
the end if `Automaton.requireStates` lets it pass, and up to the state that is refused otherwise
(`Automaton.flatMapM_eq_requireStates`).
-/

namespace ByteMatch

variable {α : Type}

theorem Table.checkedStep_eq {table : Table} (h : table.WellFormed) (byte : UInt8) :
    table.checkedStep byte = .ok (table.step byte) := by
  rw [checkedStep, ColumnTable.step_ofTable h.packed]

theorem StateSet.checkedDistinct_eq (threshold : Nat) (states : List StateId) :
    checkedDistinct threshold states = .ok (distinct threshold states) := by
  rw [checkedDistinct, dedupe_eq]

namespace Automaton

variable {fa : Automaton α} {s : StateId} {states members : List StateId} {byte : UInt8}

/-! ### Looking up one state -/

private theorem payloads_of_getElem? {node : Node α} (h : fa.nodes[s]? = some node) :
    fa.payloads s = node.payloads := by
  rw [payloads, h]

private theorem step_of_getElem? {node : Node α} (h : fa.nodes[s]? = some node) (byte : UInt8) :
    fa.step s byte = node.table.step byte := by
  rw [step, h]

theorem lookUp_of_lt (hs : s < fa.size) :
    ∃ node, fa.nodes[s]? = some node ∧ fa.lookUp s = .ok node := by
  obtain ⟨node, hnode⟩ : ∃ node, fa.nodes[s]? = some node := ⟨_, Array.getElem?_eq_getElem hs⟩
  exact ⟨node, hnode, by rw [lookUp, hnode]⟩

theorem lookUp_of_not_lt (hs : ¬ s < fa.size) : fa.lookUp s = .error (.stepOutside s) := by
  rw [lookUp, Array.getElem?_eq_none (Nat.le_of_not_lt hs)]

theorem lookUpClosure_of_lt (hs : s < fa.size) : fa.lookUpClosure s = .ok (fa.closure s) := by
  obtain ⟨closure, hclosure⟩ : ∃ closure, fa.closures[s]? = some closure :=
    ⟨_, Array.getElem?_eq_getElem (fa.size_closures.symm ▸ hs)⟩
  rw [lookUpClosure, Automaton.closure, hclosure]
  rfl

theorem lookUpClosure_of_not_lt (hs : ¬ s < fa.size) :
    fa.lookUpClosure s = .error (.stepOutside s) := by
  rw [lookUpClosure, Array.getElem?_eq_none (fa.size_closures.symm ▸ Nat.le_of_not_lt hs)]

/-- Closures of states do not lead outside. -/
theorem lt_size_of_mem_closure (hs : s < fa.size) {t : StateId} (ht : t ∈ fa.closure s) :
    t < fa.size :=
  ((fa.mem_closure_iff hs t).1 ht).lt_size_of_nil hs

theorem payloads_lookUp (hs : s < fa.size) :
    Node.payloads <$> fa.lookUp s = .ok (fa.payloads s) := by
  obtain ⟨node, hnode, hlookUp⟩ := lookUp_of_lt hs
  rw [hlookUp, payloads_of_getElem? hnode]
  rfl

/-- A state that is there is come through. -/
theorem visit_eq (tables : fa.TablesWellFormed) (hs : s < fa.size) (byte : UInt8) :
    fa.visit byte s = .ok (fa.payloads s, fa.step s byte) := by
  obtain ⟨node, hnode, hlookUp⟩ := lookUp_of_lt hs
  -- the state is there, and in its table a target for every run
  have htable := Table.checkedStep_eq (tables node (Array.mem_of_getElem? hnode)) byte
  rw [visit, hlookUp, payloads_of_getElem? hnode, step_of_getElem? hnode]
  show (node.table.checkedStep byte >>= fun target => pure (node.payloads, target)) = _
  rw [htable]
  rfl

private theorem visit_of_not_lt (hs : ¬ s < fa.size) :
    fa.visit byte s = .error (.stepOutside s) := by
  rw [visit, lookUp_of_not_lt hs]
  rfl

/-! ### Looking up one state after the other -/

theorem requireStates_cons_of_lt (hs : s < fa.size) (states : List StateId) :
    fa.requireStates (s :: states) = fa.requireStates states := by
  have hone : fa.requireStates [s] = .ok () :=
    requireStates_eq_ok_iff.2 fun t ht => List.mem_singleton.1 ht ▸ hs
  rw [requireStates_cons, hone]
  rfl

private theorem requireStates_cons_of_not_lt (hs : ¬ s < fa.size) (states : List StateId) :
    fa.requireStates (s :: states) = .error (.stepOutside s) := by
  rw [requireStates, List.find?_cons_of_pos (by simpa using hs)]

/-- **Work that begins by looking a state up**, done for one state after the other, is done to the end
if all of them are there. -/
theorem flatMapM_eq_requireStates {β : Type} {f : StateId → Except Fault (List β)}
    {g : StateId → List β} (hin : ∀ s, s < fa.size → f s = .ok (g s))
    (hout : ∀ s, ¬ s < fa.size → f s = .error (.stepOutside s)) (states : List StateId) :
    states.flatMapM f = (fun _ => states.flatMap g) <$> fa.requireStates states := by
  induction states with
  | nil => rfl
  | cons s states ih =>
    rw [List.flatMapM_cons]
    by_cases hs : s < fa.size
    · rw [hin s hs, requireStates_cons_of_lt hs, ih]
      cases fa.requireStates states with
      | error e => rfl
      | ok => rfl
    · -- the first state that is missing is the one that `requireStates` names
      rw [hout s hs, requireStates_cons_of_not_lt hs]
      rfl

theorem checkedPayloads_eq (fa : Automaton α) (states : List StateId) :
    fa.checkedPayloads states =
      (fun _ => fa.payloadsAll (fa.closureAll states)) <$> fa.requireStates states := by
  rw [payloadsAll, closureAll, List.flatMap_assoc]
  refine flatMapM_eq_requireStates (fun s hs => ?_) (fun s hs => ?_) states
  · rw [lookUpClosure_of_lt hs]
    exact flatMapM_eq_ok fun t ht => payloads_lookUp (lt_size_of_mem_closure hs ht)
  · rw [lookUpClosure_of_not_lt hs]
    rfl

theorem visitAll_eq (tables : fa.TablesWellFormed) (byte : UInt8) (states : List StateId) :
    fa.visitAll byte states =
      (fun _ => (fa.closureAll states).map fun m => (fa.payloads m, fa.step m byte)) <$>
        fa.requireStates states := by
  rw [closureAll, List.map_flatMap]
  refine flatMapM_eq_requireStates (fun s hs => ?_) (fun s hs => ?_) states
  · rw [lookUpClosure_of_lt hs]
    exact mapM_eq_ok fun t ht => visit_eq tables (lt_size_of_mem_closure hs ht) byte
  · rw [lookUpClosure_of_not_lt hs]
    rfl

/-! ### Walks -/

private theorem checkedTrail_of_not_lt (hs : ¬ s < fa.size) (bytes : Bytes) :
    fa.checkedTrail s bytes = .error (.stepOutside s) := by
  cases bytes with
  | nil =>
    rw [checkedTrail, lookUp_of_not_lt hs]
    rfl
  | cons byte rest =>
    rw [checkedTrail, visit_of_not_lt hs]
    rfl

/-- **The walk from state to state** comes out the same if every look-up is checked. -/
theorem checkedTrail_eq (tables : fa.TablesWellFormed) (hs : s < fa.size) (bytes : Bytes) :
    fa.checkedTrail s bytes = fa.trail s bytes := by
  induction bytes generalizing s with
  | nil =>
    rw [checkedTrail, payloads_lookUp hs]
    rfl
  | cons byte rest ih =>
    rw [checkedTrail, visit_eq tables hs, trail]
    cases fa.step s byte with
    | none => rfl
    | some next =>
      show (fa.checkedTrail next rest >>= fun found => pure (fa.payloads s ++ found)) =
        (fa.requireStates [next] >>= fun _ => fa.trail next rest >>= fun found =>
          pure (fa.payloads s ++ found))
      -- the next state is looked up here where the other walk requires it
      by_cases hnext : next < fa.size
      · rw [ih hnext, requireStates_cons_of_lt hnext]
        rfl
      · rw [checkedTrail_of_not_lt hnext, requireStates_cons_of_not_lt hnext]
        rfl

private theorem setTrail_nil (fa : Automaton α) (threshold : Nat) (bytes : Bytes) :
    fa.setTrail threshold [] bytes = .ok [] := by
  cases bytes with
  | nil => rfl
  | cons byte rest =>
    -- from no states a byte leads to none
    have hnext : StateSet.distinct threshold (fa.stepAll (fa.closureAll []) byte) = [] :=
      StateSet.distinct_nil threshold
    rw [setTrail, hnext]
    rfl

/-- Where a byte leads nowhere, the walk might as well go on from no states at all. -/
private theorem setTrail_cons (fa : Automaton α) (threshold : Nat) (states : List StateId)
    (byte : UInt8) (rest : Bytes) {next : List StateId}
    (hnext : StateSet.distinct threshold (fa.stepAll (fa.closureAll states) byte) = next) :
    fa.setTrail threshold states (byte :: rest) =
      (fa.requireStates next >>= fun _ => fa.setTrail threshold next rest >>= fun found =>
        pure (fa.payloadsAll (fa.closureAll states) ++ found)) := by
  rw [setTrail, hnext]
  cases next with
  | nil =>
    show Except.ok (fa.payloadsAll (fa.closureAll states)) =
      (fa.setTrail threshold [] rest >>= fun found =>
        pure (fa.payloadsAll (fa.closureAll states) ++ found))
    rw [setTrail_nil]
    exact congrArg Except.ok (List.append_nil _).symm
  | cons => rfl

private theorem checkedSetTrail_nil (fa : Automaton α) (threshold : Nat) (bytes : Bytes) :
    fa.checkedSetTrail threshold [] bytes = .ok [] := by
  cases bytes with
  | nil => rfl
  | cons byte rest => rfl

/-- One byte of the walk in which every look-up is checked. -/
private theorem checkedSetTrail_cons (tables : fa.TablesWellFormed) (threshold : Nat)
    (states : List StateId) (byte : UInt8) (rest : Bytes) {members next : List StateId}
    (hmembers : fa.closureAll states = members)
    (hnext : StateSet.distinct threshold (fa.stepAll members byte) = next) :
    fa.checkedSetTrail threshold states (byte :: rest) =
      (fa.requireStates states >>= fun _ => fa.checkedSetTrail threshold next rest >>= fun found =>
        pure (fa.payloadsAll members ++ found)) := by
  cases states with
  | nil =>
    obtain rfl : [] = members := hmembers
    obtain rfl : [] = next := (StateSet.distinct_nil threshold).symm.trans hnext
    show Except.ok [] = (fa.checkedSetTrail threshold [] rest >>= fun found => pure ([] ++ found))
    rw [checkedSetTrail_nil]
    rfl
  | cons s states =>
    rw [checkedSetTrail, visitAll_eq tables, hmembers]
    · cases fa.requireStates (s :: states) with
      | error e => rfl
      | ok =>
        -- what was visited, taken apart again
        have htargets : (members.map fun m => (fa.payloads m, fa.step m byte)).filterMap Prod.snd =
            fa.stepAll members byte := List.filterMap_map
        have hpayloads : (members.map fun m => (fa.payloads m, fa.step m byte)).flatMap Prod.fst =
            fa.payloadsAll members := List.flatMap_map _ _ members
        show (StateSet.checkedDistinct threshold
            ((members.map fun m => (fa.payloads m, fa.step m byte)).filterMap Prod.snd) >>= _) = _
        rw [htargets, StateSet.checkedDistinct_eq, hnext, hpayloads]
        rfl
    · exact fun h => absurd h (List.cons_ne_nil s states)

/-- **The walk through sets of states** comes out the same if every look-up is checked; the states in
which it begins are looked up as well. -/
theorem checkedSetTrail_eq (tables : fa.TablesWellFormed) (threshold : Nat)
    (states : List StateId) (bytes : Bytes) :
    fa.checkedSetTrail threshold states bytes =
      (fa.requireStates states >>= fun _ => fa.setTrail threshold states bytes) := by
  induction bytes generalizing states with
  | nil =>
    rw [checkedSetTrail, checkedPayloads_eq]
    cases fa.requireStates states with
    | error e => rfl
    | ok => rfl
  | cons byte rest ih =>
    -- the next states are looked up once the walk is in them, the other one requires them before
    rw [checkedSetTrail_cons tables threshold states byte rest rfl rfl, ih,
      fa.setTrail_cons threshold states byte rest rfl]
    simp only [bind_assoc]

variable [DecidableEq α]

theorem checkedTraverseSets_eq (tables : fa.TablesWellFormed) (threshold : Nat) (value : Bytes)
    (incoming : List α) :
    fa.checkedTraverseSets threshold value incoming = fa.traverseSets threshold value incoming := by
  -- the walk begins in the start, which is a state
  rw [checkedTraverseSets, checkedSetTrail_eq tables, requireStates_cons_of_lt fa.start_lt]
  rfl

/-- **A walk comes out the same if every look-up is checked.** -/
theorem checkedTraverse_eq (tables : fa.TablesWellFormed) (threshold : Nat) (value : Bytes)
    (incoming : List α) :
    fa.checkedTraverse threshold value incoming = fa.traverse threshold value incoming := by
  unfold checkedTraverse traverse
  split
  · next hdet =>
    rw [checkedTraverseStates, if_pos hdet, checkedTrail_eq tables fa.start_lt]
    rfl
  · exact checkedTraverseSets_eq tables threshold value incoming

end Automaton

end ByteMatch
