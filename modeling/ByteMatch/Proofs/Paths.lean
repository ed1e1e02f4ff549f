import ByteMatch.Automaton
import ByteMatch.Proofs.SparseSets

/-!
# Paths through an automaton

What a walk ought to find is said by paths: `fa.Path s read t` holds if one can get from state `s` to
state `t` by reading exactly `read`, taking epsilon edges anywhere. `fa.Yields read p` says that some
path from the start reads `read` and ends in a state with the payload `p`.

The first thing to know about the walks is that the closures which they look up are right
(`Automaton.mem_closure_iff`): the closure of a state holds what can be reached from it without
reading. It comes from `Discovery.mem_explore_iff` and from `SparseSet.lawful_insert`, by which a
sparse set is as good as a list of what was inserted.
-/

namespace ByteMatch

open Discovery

theorem Table.step_empty (byte : UInt8) : Table.empty.step byte = none := by
  by_cases h : byte.toNat < alphabetSize <;>
    simp [Table.step, Table.target, Table.empty, Table.uniform, Runs.get?, h]

variable {α : Type}

/-! ### Epsilon closures -/

theorem epsilonTargets_eq {nodes : Array (Node α)} {state : StateId} {node : Node α}
    (h : nodes[state]? = some node) : epsilonTargets nodes state = node.table.epsilons := by
  simp [epsilonTargets, h]

/-- Where there are no epsilon edges, none leads anywhere. -/
theorem Automaton.epsilonTargets_eq_nil {fa : Automaton α} (hdet : fa.deterministic = true)
    (state : StateId) : epsilonTargets fa.nodes state = [] := by
  cases hnode : fa.nodes[state]? with
  | none =>
    rw [epsilonTargets, hnode]
    rfl
  | some node =>
    have hempty := Array.all_eq_true_iff_forall_mem.1 hdet node (Array.mem_of_getElem? hnode)
    rw [epsilonTargets_eq hnode]
    exact List.isEmpty_iff.1 hempty

theorem Graph.epsilonTargets_lt (g : Graph α) {state e : StateId}
    (h : e ∈ epsilonTargets g.nodes state) : e < g.nodes.size := by
  cases hnode : g.nodes[state]? with
  | none => simp [epsilonTargets, hnode] at h
  | some node =>
    rw [epsilonTargets_eq hnode] at h
    exact g.epsilons_lt node (Array.mem_of_getElem? hnode) e h

theorem size_pushClosures (nodes : Array (Node α)) (states : List StateId)
    (seen : SparseSet nodes.size) (closures : Array (List StateId)) :
    (pushClosures nodes states seen closures).size = closures.size + states.length := by
  induction states generalizing seen closures with
  | nil => rfl
  | cons state states ih =>
    rw [pushClosures, ih, Array.size_push, List.length_cons]
    omega

/-- What has been pushed stays where it is. -/
private theorem getElem?_pushClosures_of_lt (nodes : Array (Node α)) (states : List StateId)
    (seen : SparseSet nodes.size) (closures : Array (List StateId)) (i : Nat)
    (h : i < closures.size) : (pushClosures nodes states seen closures)[i]? = closures[i]? := by
  induction states generalizing seen closures with
  | nil => rfl
  | cons state states ih =>
    rw [pushClosures, ih _ _ (by rw [Array.size_push]; omega), Array.getElem?_push_lt h,
      Array.getElem?_eq_getElem h]

/-- What is pushed for the state listed at place `i`: an exploration that begins with an empty set,
whatever the set held before. -/
theorem getElem?_pushClosures (nodes : Array (Node α)) (states : List StateId)
    (seen : SparseSet nodes.size) (closures : Array (List StateId)) (i : Nat) {state : StateId}
    (h : states[i]? = some state) :
    ∃ empty : SparseSet nodes.size, empty.toList = [] ∧
      (pushClosures nodes states seen closures)[closures.size + i]? =
        some (explore SparseSet.insert (epsilonTargets nodes) nodes.size empty state).toList := by
  induction states generalizing seen closures i with
  | nil => simp at h
  | cons first states ih =>
    rw [pushClosures]
    cases i with
    | zero =>
      -- this closure is pushed next, and what is pushed later leaves it where it is
      obtain rfl : first = state := by simpa using h
      refine ⟨seen.clear, SparseSet.toList_clear seen, ?_⟩
      rw [Nat.add_zero, getElem?_pushClosures_of_lt _ _ _ _ _ (by simp)]
      simp
    | succ i =>
      -- one more closure lies below the place
      obtain ⟨empty, hempty, hi⟩ := ih _ (closures.push _) i (by simpa using h)
      refine ⟨empty, hempty, ?_⟩
      rw [← hi, Array.size_push]
      congr 1
      omega

/-- The epsilon closure of a state is what an exploration finds that begins with an empty set. -/
theorem Graph.exists_epsilonClosures_eq (g : Graph α) {state : StateId} (h : state < g.nodes.size) :
    ∃ empty : SparseSet g.nodes.size, empty.toList = [] ∧
      (epsilonClosures g.nodes)[state]?.getD [] =
        (explore SparseSet.insert (epsilonTargets g.nodes) g.nodes.size empty state).toList := by
  -- the states are listed in order, so each stands at the place of its number
  have hlisted : (List.range g.nodes.size)[state]? = some state := by simp [h]
  obtain ⟨empty, hempty, hstate⟩ := getElem?_pushClosures g.nodes (List.range g.nodes.size)
    (SparseSet.empty g.nodes.size) #[] state hlisted
  rw [Array.size_empty, Nat.zero_add] at hstate
  exact ⟨empty, hempty, by rw [epsilonClosures, hstate, Option.getD_some]⟩

/-- The epsilon closure of a state lists what epsilon edges lead to. -/
theorem Graph.mem_epsilonClosures_iff (g : Graph α) {state : StateId} (h : state < g.nodes.size)
    (t : StateId) :
    t ∈ (epsilonClosures g.nodes)[state]?.getD [] ↔ Reaches (epsilonTargets g.nodes) state t := by
  obtain ⟨empty, hempty, hclosure⟩ := g.exists_epsilonClosures_eq h
  rw [hclosure]
  refine mem_explore_iff (SparseSet.lawful_insert g.nodes.size) ?_ (by simp) hempty
    (List.mem_range.2 h) t
  intro s _ e he
  exact List.mem_range.2 (g.epsilonTargets_lt he)

/-- Every state has a closure. -/
theorem Automaton.size_closures (fa : Automaton α) : fa.closures.size = fa.size := by
  rw [fa.closures_eq, epsilonClosures, size_pushClosures, Array.size_empty, List.length_range,
    Nat.zero_add]
  rfl

namespace Automaton

/-! ### Paths -/

/-- **Steps stay inside.** A step is taken on a byte of the alphabet only, and it leads to a state of
the automaton. -/
def StepsInside (fa : Automaton α) : Prop :=
  ∀ state byte next, fa.step state byte = some next → InAlphabet byte ∧ next < fa.size

/-- Steps stay inside if the runs of every table end within the alphabet and lead to states. -/
theorem stepsInside_of_runs {fa : Automaton α}
    (h : ∀ node ∈ fa.nodes, ∀ run ∈ node.table.steps,
      run.1 ≤ alphabetSize ∧ ∀ next ∈ run.2, next < fa.size) : fa.StepsInside := by
  intro state byte next hstep
  unfold step at hstep
  split at hstep
  · contradiction
  · next node hnode =>
    simp only [Table.step, Table.target, Runs.get?] at hstep
    cases hfind : node.table.steps.find? fun run => byte.toNat < run.1 with
    | none => simp [hfind] at hstep
    -- the byte is covered by the first run that ends behind it
    | some run =>
      obtain ⟨hbound, hnext⟩ := h node (Array.mem_of_getElem? hnode) run (List.mem_of_find?_eq_some hfind)
      have hlt : byte.toNat < run.1 := by simpa using List.find?_some hfind
      rw [hfind, Option.map_some, Option.getD_some] at hstep
      exact ⟨by unfold InAlphabet; omega, hnext next (by rw [hstep]; rfl)⟩

/-- `fa.Path s read t`: reading exactly `read` leads from `s` to `t`, epsilon edges being taken
anywhere. -/
inductive Path (fa : Automaton α) : StateId → Bytes → StateId → Prop
  | refl (s : StateId) : Path fa s [] s
  | epsilon {s e t : StateId} {read : Bytes} :
      e ∈ epsilonTargets fa.nodes s → Path fa e read t → Path fa s read t
  | byte {s n t : StateId} {b : UInt8} {read : Bytes} :
      fa.step s b = some n → Path fa n read t → Path fa s (b :: read) t

namespace Path

variable {fa : Automaton α} {s t u : StateId} {read : Bytes}

/-- Two paths in a row. -/
theorem trans {more : Bytes} (h : fa.Path s read t) (h' : fa.Path t more u) :
    fa.Path s (read ++ more) u := by
  induction h with
  | refl => exact h'
  | epsilon he _ ih => exact .epsilon he (ih h')
  | byte hb _ ih => exact .byte hb (ih h')

/-- A path on which nothing is read takes epsilon edges only. -/
theorem nil_iff : fa.Path s [] t ↔ Reaches (epsilonTargets fa.nodes) s t := by
  refine ⟨fun h => ?_, fun h => ?_⟩
  · -- the induction needs an index that is a variable
    generalize hread : ([] : Bytes) = read at h
    induction h with
    | refl => exact Relation.ReflTransGen.refl
    | epsilon he _ ih => exact Relation.ReflTransGen.head he (ih hread)
    | byte => contradiction
  · induction h using Relation.ReflTransGen.head_induction_on with
    | refl => exact .refl t
    | head he _ ih => exact .epsilon he ih

/-- A path on which something is read takes epsilon edges up to the first byte. -/
theorem cons_iff {b : UInt8} :
    fa.Path s (b :: read) t ↔
      ∃ m, fa.Path s [] m ∧ ∃ n, fa.step m b = some n ∧ fa.Path n read t := by
  refine ⟨fun h => ?_, ?_⟩
  · generalize hread : b :: read = whole at h
    induction h with
    | refl => contradiction
    | epsilon he _ ih =>
      -- one more epsilon edge before the byte
      obtain ⟨m, hm, hrest⟩ := ih hread
      exact ⟨m, .epsilon he hm, hrest⟩
    | byte hb hpath =>
      obtain ⟨rfl, rfl⟩ := List.cons.inj hread
      exact ⟨_, .refl _, _, hb, hpath⟩
  · rintro ⟨m, hm, n, hb, hrest⟩
    exact hm.trans (.byte hb hrest)

/-- Paths do not leave an automaton whose steps stay inside. -/
theorem lt_size (inside : fa.StepsInside) (h : fa.Path s read t) (hs : s < fa.size) :
    t < fa.size := by
  induction h with
  | refl => exact hs
  | epsilon he _ ih => exact ih (fa.toGraph.epsilonTargets_lt he)
  | byte hb _ ih => exact ih (inside _ _ _ hb).2

end Path

/-- **Closures are exact.** -/
theorem mem_closure_iff (fa : Automaton α) {s : StateId} (h : s < fa.size) (t : StateId) :
    t ∈ fa.closure s ↔ fa.Path s [] t := by
  rw [closure, fa.closures_eq, Path.nil_iff]
  exact fa.toGraph.mem_epsilonClosures_iff h t

/-- Some path from the start reads `read` and ends in a state with the payload `p`. -/
def Yields (fa : Automaton α) (read : Bytes) (p : α) : Prop :=
  ∃ t, fa.Path fa.start read t ∧ p ∈ fa.payloads t

end Automaton

end ByteMatch
