import ByteMatch.Proofs.Serving
import ByteMatch.Proofs.SingleStates
import ByteMatch.Sealing

/-!
# Sealing notes exact closures

`sealStates` seals the states that `Graph.seal` seals (`Sealable`), and notes with each of them what
that one lists: the state itself first, then once each what else can be reached by epsilon edges
(`sealing_is_exact`). Cycles, edges from a state to itself and several ways to one state make no
difference, and neither does what was noted before.

A search in place does what `Discovery.run` does with fuel enough (`Search.run_tracking`), because
the work that is left in it is a bound for the rounds to come. From one search to the next only the set
is handed on, which is emptied, and the stack, on which nothing waits any more. An edge that leads
outside is taken in the search from its own state at the latest, for that state is gone on from first
(`Search.run_restart_error`).
-/

namespace ByteMatch

open Discovery

variable {α : Type} {n : Nat}

/-- The states without what is noted with them. -/
def plain (states : Array (NotedNode α)) : Array (Node α) := states.map (·.toNode)

@[simp] theorem size_plain (states : Array (NotedNode α)) : (plain states).size = states.size :=
  Array.size_map

private theorem getElem?_plain (states : Array (NotedNode α)) (i : Nat) :
    (plain states)[i]? = states[i]?.map (·.toNode) := Array.getElem?_map

/-- What is noted with a state is no part of it. -/
private theorem plain_modify (states : Array (NotedNode α)) (i : Nat) (closure : List StateId) :
    plain (states.modify i ({ · with closure := closure })) = plain states := by
  ext1
  · rw [size_plain, size_plain, Array.size_modify]
  · next j _ _ =>
    simp only [plain, Array.getElem_map, Array.getElem_modify]
    split <;> rfl

namespace Search

/-- A search in which all that was found is listed. -/
def tracking (seen : SparseSet n) (pending : List StateId) : Search n := ⟨seen, pending, seen.toList⟩

/-! ### One search -/

/-- Edges that lead inside are taken as an exploration takes them. -/
theorem enter_tracking {targets : List StateId} (h : ∀ e ∈ targets, e < n) (seen : SparseSet n)
    (pending : List StateId) :
    enter targets (tracking seen pending) =
      .ok (tracking (Discovery.enter SparseSet.insert targets seen pending).1
        (Discovery.enter SparseSet.insert targets seen pending).2) := by
  induction targets generalizing seen pending with
  | nil => rfl
  | cons e targets ih =>
    have hrest : ∀ e' ∈ targets, e' < n := fun e' he' => h e' (List.mem_cons_of_mem _ he')
    rw [enter, if_pos (h e List.mem_cons_self), Discovery.enter]
    cases hinsert : seen.insert e with
    | mk new seen' =>
      cases new with
      | true =>
        -- what is found is put behind what was found before
        have hgo := ih hrest seen' (e :: pending)
        rw [tracking, SparseSet.toList_of_insert_new hinsert] at hgo
        simpa only [tracking, hinsert] using hgo
      | false =>
        have hgo := ih hrest seen' pending
        rw [tracking, SparseSet.toList_of_insert_old hinsert] at hgo
        simpa only [tracking, hinsert] using hgo

/-- An edge that leads outside is found out, whatever was found before. -/
theorem enter_eq_error {targets : List StateId} (h : ∃ e ∈ targets, ¬ e < n) (search : Search n) :
    enter targets search = .error .epsilonOutside := by
  obtain ⟨out, hmem, hout⟩ := h
  induction targets generalizing search with
  | nil => exact absurd hmem List.not_mem_nil
  | cons e targets ih =>
    rw [enter]
    split
    · next he =>
      have hrest : out ∈ targets := by
        rcases List.mem_cons.1 hmem with rfl | hmem
        · exact absurd he hout
        · exact hmem
      split
      · exact ih _ hrest
      · exact ih _ hrest
    · rfl

/-- There is no other fault. -/
theorem eq_epsilonOutside_of_enter {targets : List StateId} {search : Search n} {fault : Fault}
    (h : enter targets search = .error fault) : fault = .epsilonOutside := by
  by_cases hin : ∃ e ∈ targets, ¬ e < n
  · rw [enter_eq_error hin] at h
    exact (Except.error.inj h).symm
  · exfalso
    push Not at hin
    induction targets generalizing search with
    | nil => contradiction
    | cons e targets ih =>
      have hrest : ∀ e' ∈ targets, e' < n := fun e' he' => hin e' (List.mem_cons_of_mem _ he')
      rw [enter, if_pos (hin e List.mem_cons_self)] at h
      split at h
      · exact ih h hrest
      · exact ih h hrest

private theorem eq_epsilonOutside_of_run {states : Array (NotedNode α)} {search : Search n}
    {fault : Fault} (h : search.run states = .error fault) : fault = .epsilonOutside := by
  fun_induction run states search with
  | case1 => contradiction
  | case2 => exact (Except.error.inj h).symm
  | case3 search state pending hpending node hnode fault' henter =>
    obtain rfl := Except.error.inj h
    exact eq_epsilonOutside_of_enter henter
  | case4 search state pending hpending node hnode next henter ih => exact ih h

variable {states : Array (NotedNode α)}

private theorem run_of_nil {search : Search n} (h : search.pending = []) :
    search.run states = .ok search := by
  rw [run]
  split
  · rfl
  · next h' => exact absurd (h.symm.trans h') (by simp)

/-- One round of a search. -/
private theorem run_of_cons {search : Search n} {s : StateId} {pending : List StateId}
    {node : NotedNode α} (h : search.pending = s :: pending) (hnode : states[s]? = some node) :
    search.run states =
      (enter node.table.epsilons { search with pending := pending }).bind (run states) := by
  rw [run]
  split
  · next h' => exact absurd (h.symm.trans h') (by simp)
  · next s' pending' h' =>
    obtain ⟨rfl, rfl⟩ := List.cons.inj (h.symm.trans h')
    split
    · next hnone => exact absurd (hnode.symm.trans hnone) (by simp)
    · next node' hnode' =>
      obtain rfl := Option.some.inj (hnode.symm.trans hnode')
      split <;> next hround => rw [hround]; rfl

/-- **A search is an exploration.** Where no edge leads outside, a search ends with nothing waiting, and
what it found is what an exploration discovers with fuel for the work that was left. -/
theorem run_tracking (hsize : states.size = n)
    (hin : ∀ s, ∀ e ∈ epsilonTargets (plain states) s, e < n) (fuel : Nat) (seen : SparseSet n)
    (pending : List StateId) (hpending : ∀ s ∈ pending, s < n)
    (hfuel : (tracking seen pending).work ≤ fuel) :
    (tracking seen pending).run states =
      .ok (tracking (Discovery.run SparseSet.insert (epsilonTargets (plain states)) fuel seen pending)
        []) := by
  -- fuel and work go down together, one for each state that is taken from the stack
  induction fuel generalizing seen pending with
  | zero =>
    -- no work is left, so nothing waits
    have hnil : pending = [] := by
      simp only [work, tracking] at hfuel
      exact List.eq_nil_of_length_eq_zero (by omega)
    subst hnil
    exact run_of_nil rfl
  | succ fuel ih =>
    cases pending with
    | nil => exact run_of_nil rfl
    | cons s pending =>
      have hs : s < states.size := hsize ▸ hpending s List.mem_cons_self
      have hnode : states[s]? = some states[s] := Array.getElem?_eq_getElem hs
      have hplain : (plain states)[s]? = some states[s].toNode := by
        rw [getElem?_plain, hnode]
        rfl
      have htargets : epsilonTargets (plain states) s = states[s].table.epsilons :=
        epsilonTargets_eq hplain
      obtain ⟨new, -, hnew, hsub, -⟩ := Discovery.enter_spec (SparseSet.lawful_insert n)
        (epsilonTargets (plain states) s) (fun e he => List.mem_range.2 (hin s e he)) seen pending
      have hround := enter_tracking (hin s) seen pending
      rw [run_of_cons rfl hnode, ← htargets]
      show (enter (epsilonTargets (plain states) s) (tracking seen pending)).bind (run states) = _
      rw [hround, Except.bind, Discovery.run]
      apply ih
      · -- what waits now was waiting before or is led to by an edge
        intro t ht
        rw [hnew] at ht
        rcases List.mem_append.1 ht with ht | ht
        · exact hin s t (hsub t (List.mem_reverse.1 ht))
        · exact hpending t (List.mem_cons_of_mem _ ht)
      · -- and `s` does not wait any more
        rw [enter_work hround]
        simp only [work, tracking, List.length_cons] at hfuel ⊢
        omega

/-- The search from a state takes the edges of that state first. -/
theorem run_restart_error {search : Search n} {s : StateId} {node : NotedNode α}
    (hnode : states[s]? = some node) (hout : ∃ e ∈ node.table.epsilons, ¬ e < n) :
    (search.restart s).run states = .error .epsilonOutside := by
  rw [run_of_cons rfl hnode, enter_eq_error hout]
  rfl

/-- The search from a state finds what an exploration discovers that begins with the set emptied. -/
theorem run_restart (hsize : states.size = n)
    (hin : ∀ s, ∀ e ∈ epsilonTargets (plain states) s, e < n) {search : Search n}
    (hpending : search.pending = []) {s : StateId} (hs : s < n) :
    (search.restart s).run states =
      .ok (tracking (explore SparseSet.insert (epsilonTargets (plain states)) n search.seen.clear s)
        []) := by
  have hfirst : (search.seen.clear.insert s).2.toList = [s] :=
    members_insert_start (SparseSet.lawful_insert n) (SparseSet.toList_clear _)
      (List.mem_range.2 hs)
  have hbegin : search.restart s = tracking (search.seen.clear.insert s).2 [s] := by
    rw [restart, tracking, hfirst, hpending]
  rw [hbegin]
  refine run_tracking hsize hin n _ [s] ?_ ?_
  · intro t ht
    rwa [List.mem_singleton.1 ht]
  · have hsize : (search.seen.clear.insert s).2.size = 1 := by
      rw [← SparseSet.length_toList, hfirst, List.length_singleton]
    have hpos : 0 < n := Nat.zero_lt_of_lt hs
    simp only [work, tracking, hsize, List.length_singleton]
    omega

end Search

/-! ### All searches -/

/-- Noting a closure changes nothing else. -/
theorem plain_of_noteClosure {progress next : Array (NotedNode α) × Search n} {s : StateId}
    (h : noteClosure progress s = .ok next) : plain next.1 = plain progress.1 := by
  obtain ⟨search, -, h⟩ := bind_eq_ok_iff.1 h
  obtain rfl := Except.ok.inj h
  exact plain_modify _ _ _

private theorem eq_epsilonOutside_of_noteClosure {progress : Array (NotedNode α) × Search n}
    {s : StateId} {fault : Fault} (h : noteClosure progress s = .error fault) :
    fault = .epsilonOutside := by
  rw [noteClosure] at h
  cases hrun : (progress.2.restart s).run progress.1 with
  | error fault' =>
    rw [hrun] at h
    obtain rfl := Except.error.inj h
    exact Search.eq_epsilonOutside_of_run hrun
  | ok search =>
    rw [hrun] at h
    contradiction

/-- An edge that leads outside is found out at its own state, if not before. -/
theorem foldlM_noteClosure_error {s : StateId} {node : Node α} {states : List StateId}
    (hs : s ∈ states) (hout : ∃ e ∈ node.table.epsilons, ¬ e < n)
    (progress : Array (NotedNode α) × Search n) (hnode : (plain progress.1)[s]? = some node) :
    states.foldlM noteClosure progress = .error .epsilonOutside := by
  induction states generalizing progress with
  | nil => exact absurd hs List.not_mem_nil
  | cons first states ih =>
    rw [List.foldlM_cons]
    cases hfirst : noteClosure progress first with
    | error fault =>
      obtain rfl := eq_epsilonOutside_of_noteClosure hfirst
      rfl
    | ok next =>
      rcases List.mem_cons.1 hs with rfl | hs
      · -- its own search cannot come to an end
        exfalso
        rw [getElem?_plain, Option.map_eq_some_iff] at hnode
        obtain ⟨noted, hnoted, rfl⟩ := hnode
        rw [noteClosure, Search.run_restart_error hnoted hout] at hfirst
        contradiction
      · exact ih hs next (by rw [plain_of_noteClosure hfirst, hnode])

/-- The closures of all states from `k` on are noted as `pushClosures` lists them, if those of the
states before have been. -/
theorem foldlM_noteClosure {nodes : Array (Node α)}
    (hin : ∀ s, ∀ e ∈ epsilonTargets nodes s, e < nodes.size) (m k : Nat)
    (hend : k + m = nodes.size) (states : Array (NotedNode α)) (search : Search nodes.size)
    (closures : Array (List StateId)) (hplain : plain states = nodes)
    (hpending : search.pending = []) (hsize : closures.size = k)
    (hnoted : ∀ i < k, states[i]?.map (·.closure) = closures[i]?) :
    ∃ states' search', (List.range' k m).foldlM noteClosure (states, search) = .ok (states', search') ∧
      plain states' = nodes ∧
      states'.map (·.closure) = pushClosures nodes (List.range' k m) search.seen closures := by
  -- on the number of states left; what carries it is that the first `k` closures have been noted
  induction m generalizing k states search closures with
  | zero =>
    -- all of them have been, so what is noted is what has been pushed
    refine ⟨states, search, rfl, hplain, ?_⟩
    rw [List.range'_zero, pushClosures]
    have hstates : states.size = k := by
      rw [← size_plain, hplain]
      omega
    apply Array.ext_getElem?
    intro i
    rw [Array.getElem?_map]
    rcases Nat.lt_or_ge i k with hi | hi
    · exact hnoted i hi
    · rw [Array.getElem?_eq_none (by omega), Array.getElem?_eq_none (by omega)]
      rfl
  | succ m ih =>
    have hk : k < nodes.size := by omega
    have hstates : states.size = nodes.size := by rw [← size_plain, hplain]
    have hrun := Search.run_restart hstates (hplain.symm ▸ hin) hpending hk
    rw [hplain] at hrun
    rw [List.range'_succ, List.foldlM_cons, noteClosure, hrun, pushClosures]
    -- the next search gets the same set here as there, and the stack is empty again
    refine ih (k + 1) (by omega) _ _ _ ?_ rfl ?_ ?_
    · rw [plain_modify, hplain]
    · rw [Array.size_push, hsize]
    · -- the closure of `k` is noted now, and those before stay
      intro i hi
      rw [Array.getElem?_modify, Array.getElem?_push, hsize]
      dsimp only
      rcases Nat.lt_succ_iff_lt_or_eq.1 hi with hi | rfl
      · rw [if_neg (by omega), if_neg (by omega), hnoted i hi]
      · rw [if_pos rfl, if_pos rfl, Array.getElem?_eq_getElem (by omega)]
        rfl

theorem noteClosures_error {states : Array (NotedNode α)}
    (h : ∃ node ∈ states, ∃ e ∈ node.table.epsilons, ¬ e < states.size) :
    noteClosures states = .error .epsilonOutside := by
  obtain ⟨node, hnode, hout⟩ := h
  obtain ⟨s, hs⟩ := Array.mem_iff_getElem?.1 hnode
  have hlisted : s ∈ List.range states.size :=
    List.mem_range.2 (Array.getElem?_eq_some_iff.1 hs).1
  have hplain : (plain states)[s]? = some node.toNode := by
    rw [getElem?_plain, hs]
    rfl
  rw [noteClosures, foldlM_noteClosure_error hlisted hout _ hplain]
  rfl

theorem noteClosures_ok {states : Array (NotedNode α)}
    (hin : ∀ s, ∀ e ∈ epsilonTargets (plain states) s, e < (plain states).size) :
    ∃ states', noteClosures states = .ok states' ∧ plain states' = plain states ∧
      states'.map (·.closure) = epsilonClosures (plain states) := by
  -- the set is made for the number of states, which is that of `plain states` by a lemma only
  have hall : ∀ n, n = (plain states).size → ∃ progress,
      (List.range n).foldlM noteClosure (states, (⟨SparseSet.empty n, [], []⟩ : Search n)) =
        .ok progress ∧ plain progress.1 = plain states ∧
        progress.1.map (·.closure) = epsilonClosures (plain states) := by
    rintro n rfl
    obtain ⟨states', search', hrun, hplain, hclosures⟩ :=
      foldlM_noteClosure hin (plain states).size 0 (Nat.zero_add _) states
        ⟨SparseSet.empty _, [], []⟩ #[] rfl rfl rfl (by simp)
    rw [← List.range_eq_range'] at hrun hclosures
    exact ⟨(states', search'), hrun, hplain, hclosures⟩
  obtain ⟨progress, hrun, hplain, hclosures⟩ := hall states.size (size_plain states).symm
  refine ⟨progress.1, ?_, hplain, hclosures⟩
  rw [noteClosures, hrun]
  rfl

/-! ### Sealed states -/

/-- **What sealing asks for**: there is a start, and it and the target of every epsilon edge are states
that are there. -/
structure Sealable (states : Array (NotedNode α)) (start : Option StateId) : Prop where
  start_lt : ∃ s, start = some s ∧ s < states.size
  epsilons_lt : ∀ node ∈ states, ∀ e ∈ node.table.epsilons, e < states.size

/-- The sealed states are the states of the automaton, with its closures. -/
structure SealedStates.Seals (sealed : SealedStates α) (fa : Automaton α) : Prop where
  nodes : plain sealed.states = fa.nodes
  closures : sealed.states.map (·.closure) = fa.closures
  start : sealed.start = fa.start
  deterministic : sealed.deterministic = fa.deterministic

/-- **Exact closures.** The states are what they were, and with each of them stands what epsilon edges
lead to from it: once each, and the state itself first. -/
structure SealedStates.Exact (sealed : SealedStates α) (states : Array (NotedNode α)) : Prop where
  unchanged : plain sealed.states = plain states
  self_first : ∀ s, ∀ node : NotedNode α, sealed.states[s]? = some node →
    ∃ rest, node.closure = s :: rest
  nodup : ∀ node ∈ sealed.states, node.closure.Nodup
  mem_iff : ∀ s, ∀ node : NotedNode α, sealed.states[s]? = some node →
    ∀ t, t ∈ node.closure ↔ Reaches (epsilonTargets (plain states)) s t

/-- The closure of a state begins with it. -/
theorem Automaton.exists_closure_eq_cons (fa : Automaton α) {s : StateId} (hs : s < fa.size) :
    ∃ rest, fa.closure s = s :: rest := by
  obtain ⟨empty, hempty, hclosure⟩ := fa.exists_epsilonClosures_eq hs
  obtain ⟨rest, hrest⟩ := start_prefix_explore (SparseSet.lawful_insert fa.nodes.size)
    (epsilonTargets fa.nodes) fa.nodes.size hempty (List.mem_range.2 hs)
  refine ⟨rest, ?_⟩
  rw [closure, fa.closures_eq, hclosure, ← hrest]
  rfl

/-- **Sealing in place seals.** It gives the automaton of the states with its closures, or the same
fault. -/
theorem sealStates_alike (states : Array (NotedNode α)) (start : Option StateId) :
    SameOutcome (fun sealed g => sealed.Seals g.seal) (sealStates states start)
      (Graph.ofNodes (plain states) start) := by
  cases start with
  | none => exact .fault _
  | some start =>
    rw [sealStates, Graph.ofNodes]
    by_cases hs : start < states.size
    · rw [if_pos hs, dif_pos (by rwa [size_plain])]
      by_cases he : ∀ node ∈ plain states, ∀ e ∈ node.table.epsilons, e < (plain states).size
      · rw [dif_pos he]
        -- the graph is there, so no edge leads outside
        let g : Graph α := ⟨plain states, start, by rwa [size_plain], he⟩
        obtain ⟨states', hnoted, hplain, hclosures⟩ := noteClosures_ok fun _ _ => g.epsilonTargets_lt
        rw [hnoted]
        refine .ok ⟨hplain, hclosures, rfl, ?_⟩
        show states'.all (·.table.epsilons.isEmpty) = (plain states).all (·.table.epsilons.isEmpty)
        rw [← hplain, plain, Array.all_map]
        rfl
      · rw [dif_neg he]
        simp only [not_forall] at he
        obtain ⟨node, hnode, e, hmem, hout⟩ := he
        obtain ⟨noted, hnoted, rfl⟩ := Array.mem_map.1 hnode
        rw [size_plain] at hout
        rw [noteClosures_error ⟨noted, hnoted, e, hmem, hout⟩]
        exact .fault _
    · rw [if_neg hs, dif_neg (by rwa [size_plain])]
      exact .fault _

namespace SealedStates

variable {sealed : SealedStates α} {fa : Automaton α}

/-- What is noted with a state is its closure in the automaton. -/
theorem Seals.closure_eq (h : sealed.Seals fa) {s : StateId} {node : NotedNode α}
    (hnode : sealed.states[s]? = some node) : s < fa.size ∧ node.closure = fa.closure s := by
  constructor
  · have hs := (Array.getElem?_eq_some_iff.1 hnode).1
    rw [← size_plain, h.nodes] at hs
    exact hs
  · rw [Automaton.closure, ← h.closures, Array.getElem?_map, hnode]
    rfl

theorem Seals.exact (h : sealed.Seals fa) {states : Array (NotedNode α)}
    (hnodes : fa.nodes = plain states) : sealed.Exact states where
  unchanged := h.nodes.trans hnodes
  self_first s node hnode := by
    obtain ⟨hs, hclosure⟩ := h.closure_eq hnode
    rw [hclosure]
    exact fa.exists_closure_eq_cons hs
  nodup node hnode := by
    obtain ⟨s, hs⟩ := Array.mem_iff_getElem?.1 hnode
    obtain ⟨hs, hclosure⟩ := h.closure_eq hs
    rw [hclosure]
    exact fa.nodup_closure hs
  mem_iff s node hnode t := by
    obtain ⟨hs, hclosure⟩ := h.closure_eq hnode
    rw [hclosure, Automaton.closure, fa.closures_eq, ← hnodes]
    exact fa.mem_epsilonClosures_iff hs t

end SealedStates

/-- States that can be sealed are those of a graph. -/
theorem Sealable.exists_graph {states : Array (NotedNode α)} {start : Option StateId}
    (h : Sealable states start) : ∃ g, Graph.ofNodes (plain states) start = .ok g := by
  obtain ⟨s, rfl, hs⟩ := h.start_lt
  have he : ∀ node ∈ plain states, ∀ e ∈ node.table.epsilons, e < (plain states).size := by
    intro node hnode e hmem
    obtain ⟨noted, hnoted, rfl⟩ := Array.mem_map.1 hnode
    rw [size_plain]
    exact h.epsilons_lt noted hnoted e hmem
  rw [← size_plain] at hs
  exact ⟨⟨plain states, s, hs, he⟩, by rw [Graph.ofNodes, dif_pos hs, dif_pos he]⟩

private theorem Graph.of_ofNodes {nodes : Array (Node α)} {start : Option StateId} {g : Graph α}
    (h : ofNodes nodes start = .ok g) : g.nodes = nodes ∧ start = some g.start := by
  unfold ofNodes at h
  split at h
  · contradiction
  · split at h
    · split at h
      · obtain rfl := Except.ok.inj h
        exact ⟨rfl, rfl⟩
      · contradiction
    · contradiction

/-- The states of a graph can be sealed. -/
theorem sealable_of_graph {states : Array (NotedNode α)} {start : Option StateId} {g : Graph α}
    (h : Graph.ofNodes (plain states) start = .ok g) : Sealable states start := by
  obtain ⟨hnodes, hstart⟩ := Graph.of_ofNodes h
  have hsize : g.nodes.size = states.size := by rw [hnodes, size_plain]
  refine ⟨⟨g.start, hstart, hsize ▸ g.start_lt⟩, ?_⟩
  intro node hnode e he
  rw [← hsize]
  exact g.epsilons_lt node.toNode (hnodes ▸ Array.mem_map_of_mem hnode) e he

/-- **Sealing is exact.** It faults exactly on states that break a rule. Otherwise it ends, and the
states have the closures that they should, whatever was noted with them before; they are those of the
automaton that the states make. -/
theorem sealing_is_exact (states : Array (NotedNode α)) (start : Option StateId) :
    ((∃ fault, sealStates states start = .error fault) ↔ ¬ Sealable states start) ∧
      (Sealable states start → ∃ sealed, sealStates states start = .ok sealed ∧
        start = some sealed.start ∧ sealed.Exact states) ∧
      SameOutcome (fun sealed g => sealed.Seals g.seal) (sealStates states start)
        (Graph.ofNodes (plain states) start) := by
  have halike := sealStates_alike states start
  have hseals : Sealable states start → ∃ sealed, sealStates states start = .ok sealed ∧
      start = some sealed.start ∧ sealed.Exact states := by
    intro h
    obtain ⟨g, hg⟩ := h.exists_graph
    obtain ⟨hnodes, hstart⟩ := Graph.of_ofNodes hg
    rw [hg] at halike
    obtain ⟨sealed, hsealed, hseals⟩ := halike.symm.exists_ok
    refine ⟨sealed, hsealed, ?_, hseals.exact hnodes⟩
    rw [hstart, hseals.start]
    rfl
  refine ⟨⟨?_, ?_⟩, hseals, halike⟩
  · rintro ⟨fault, hfault⟩ h
    obtain ⟨sealed, hsealed, -⟩ := hseals h
    rw [hfault] at hsealed
    contradiction
  · intro h
    cases hsealed : sealStates states start with
    | error fault => exact ⟨fault, rfl⟩
    | ok sealed =>
      -- then there would be a graph of the states
      rw [hsealed] at halike
      obtain ⟨g, hg, -⟩ := halike.exists_ok
      exact absurd (sealable_of_graph hg) h

/-- Two ways from the first state to the last but one, from which an edge leads back and one to itself;
the last state is apart. Something else was noted with every state before. -/
theorem sealing_is_exact_cycle :
    let states : Array (NotedNode Nat) := #[
      ⟨⟨(Table.empty.addEpsilon 1).addEpsilon 2, [7]⟩, [4, 4]⟩, ⟨⟨Table.empty.addEpsilon 3, []⟩, [9]⟩,
      ⟨⟨Table.empty.addEpsilon 3, []⟩, []⟩, ⟨⟨(Table.empty.addEpsilon 3).addEpsilon 0, []⟩, [3]⟩,
      ⟨⟨Table.empty, [8]⟩, [0]⟩]
    Sealable states (some 0) ∧
      (∃ sealed, sealStates states (some 0) = .ok sealed ∧ sealed.Exact states ∧
        sealed.states.map (·.closure) =
          #[[0, 1, 2, 3], [1, 3, 0, 2], [2, 3, 0, 1], [3, 0, 1, 2], [4]]) ∧
      ∃ fault, sealStates states (some 5) = .error fault := by
  intro states
  have hsealable : Sealable states (some 0) := ⟨⟨0, rfl, by decide⟩, by decide⟩
  have hrefused : ¬ Sealable states (some 5) := by
    rintro ⟨⟨s, hs, hlt⟩, -⟩
    obtain rfl := Option.some.inj hs
    exact absurd hlt (by decide)
  obtain ⟨-, hseals, halike⟩ := sealing_is_exact states (some 0)
  obtain ⟨sealed, hsealed, -, hexact⟩ := hseals hsealable
  refine ⟨hsealable, ⟨sealed, hsealed, hexact, ?_⟩, (sealing_is_exact states (some 5)).1.2 hrefused⟩
  -- the closures are those of the automaton, which can be computed
  rw [hsealed] at halike
  obtain ⟨g, hg, hg'⟩ := halike.exists_ok
  obtain ⟨hnodes, -⟩ := Graph.of_ofNodes hg
  rw [hg'.closures]
  show epsilonClosures g.nodes = _
  rw [hnodes]
  decide +kernel

end ByteMatch
