import ByteMatch.Draft
import ByteMatch.Pattern
import ByteMatch.Proofs.GlobLanguage

/-!
# Automata that are built keep inside

Steps stay inside in the automaton of every pattern (`Pattern.stepsInside`). For each way of putting
states in front this takes one lemma, which says that it widens the graph: steps still stay inside and
no state is lost, so that a state to which branches are to lead is still there when they do.

The steps of a hand-made automaton may lead anywhere; it still reads bytes of the alphabet only
(`Automaton.readsAlphabet_ofDrafts`).
-/

namespace ByteMatch

variable {α : Type}

/-- `g'` has come about from `g` by putting states in front that keep inside. -/
structure Graph.Widens (g g' : Graph α) : Prop where
  inside : g'.seal.StepsInside
  size_le : g.nodes.size ≤ g'.nodes.size

namespace Graph

variable {g g' : Graph α}

theorem Widens.refl (inside : g.seal.StepsInside) : g.Widens g := ⟨inside, Nat.le_refl _⟩

theorem Widens.trans {g'' : Graph α} (h : g.Widens g') (h' : g'.Widens g'') : g.Widens g'' :=
  ⟨h'.inside, Nat.le_trans h.size_le h'.size_le⟩

theorem widens_prependSteps (inside : g.seal.StepsInside) {default : Option StateId}
    {entries : List (UInt8 × Option StateId)} (hdefault : ∀ n, default = some n → n < g.nodes.size)
    (hentries : ∀ entry ∈ entries, ∀ n, entry.2 = some n → n < g.nodes.size) :
    g.Widens (g.prependSteps default entries) where
  inside := stepsInside_prependSteps inside (fun n hn => Nat.le_of_lt (hdefault n hn))
    fun entry hentry n hn => Nat.le_of_lt (hentries entry hentry n hn)
  size_le := by
    have hsize : (g.prependSteps default entries).nodes.size = g.nodes.size + 1 := Array.size_push _
    rw [hsize]
    exact Nat.le_succ _

/-- **Branches keep inside** if each of them does: `goal` is a state that all of them may lead to. -/
theorem widens_prependBranches (target : Graph α → List Bytes → Graph α × StateId) {goal : StateId}
    (htarget : ∀ g tails, g.seal.StepsInside → goal < g.nodes.size →
      g.Widens (target g tails).1 ∧ (target g tails).2 < (target g tails).1.nodes.size)
    (list : List (UInt8 × List Bytes)) (inside : g.seal.StepsInside) (hgoal : goal < g.nodes.size) :
    g.Widens (prependBranches target list g).1 ∧
      ∀ entry ∈ (prependBranches target list g).2, ∀ n, entry.2 = some n →
        n < (prependBranches target list g).1.nodes.size := by
  induction list generalizing g with
  | nil => exact ⟨.refl inside, fun entry hentry => absurd hentry List.not_mem_nil⟩
  | cons branch rest ih =>
    obtain ⟨b, tails⟩ := branch
    obtain ⟨hwidens, hstate⟩ := htarget g tails inside hgoal
    -- the other branches go in front of this one, which stays where it is
    obtain ⟨hrest, hentries⟩ := ih hwidens.inside (Nat.lt_of_lt_of_le hgoal hwidens.size_le)
    refine ⟨hwidens.trans hrest, fun entry hentry n hn => ?_⟩
    rcases List.mem_cons.1 hentry with rfl | hentry
    · obtain rfl := Option.some.inj hn
      exact Nat.lt_of_lt_of_le hstate hrest.size_le
    · exact hentries entry hentry n hn

end Graph

/-! ### Whole values and beginnings -/

namespace Literal

variable {g : Graph α}

theorem stepsInside_prependBytes (inside : g.seal.StepsInside) (bytes : Bytes) :
    (g.prependBytes bytes).seal.StepsInside := by
  induction bytes with
  | nil => exact inside
  | cons b bytes ih => exact Graph.stepsInside_prependByte ih b

theorem stepsInside_whole (bytes : Bytes) (payload : α) : (whole bytes payload).StepsInside :=
  stepsInside_prependBytes (Graph.stepsInside_prependEnd (Graph.stepsInside_single _)) bytes

theorem stepsInside_prependAny (inside : g.seal.StepsInside) :
    (prependAny g).seal.StepsInside := by
  have hnone : ∀ entry ∈ ([] : List (UInt8 × Option StateId)), ∀ n, entry.2 = some n →
      n < g.nodes.size := fun entry hentry => absurd hentry List.not_mem_nil
  exact (Graph.widens_prependSteps inside g.lt_size_of_start hnone).inside

theorem stepsInside_beginning (bytes : Bytes) (payload : α) :
    (beginning bytes payload).StepsInside :=
  stepsInside_prependBytes (stepsInside_prependAny (Graph.stepsInside_single _)) bytes

end Literal

/-! ### All values but some -/

namespace Exclusion

theorem widens_prependTree {success : StateId} (depth : Nat) (remainders : List Bytes)
    {g : Graph α} (inside : g.seal.StepsInside) (hsuccess : success < g.nodes.size) :
    g.Widens (prependTree success depth remainders g) := by
  -- the ends of remainders lead nowhere at all
  have hendings : ∀ (remainders : List Bytes), ∀ entry ∈ endings remainders,
      ∀ n : StateId, entry.2 ≠ some n := by
    intro remainders entry hentry n
    unfold endings at hentry
    split at hentry
    · rw [List.mem_singleton.1 hentry]
      exact Option.some_ne_none n |>.symm
    · exact absurd hentry List.not_mem_nil
  have hdefault : ∀ {g' : Graph α}, success < g'.nodes.size →
      ∀ n, some success = some n → n < g'.nodes.size := by
    intro g' h n hn
    obtain rfl := Option.some.inj hn
    exact h
  induction depth generalizing remainders g with
  | zero =>
    -- endings lead nowhere, all else to success
    refine Graph.widens_prependSteps inside (hdefault hsuccess) fun entry hentry n hn => ?_
    exact absurd hn (hendings remainders entry hentry n)
  | succ depth ih =>
    obtain ⟨hwidens, hentries⟩ := Graph.widens_prependBranches
      (fun g tails => (prependTree success depth tails g, (prependTree success depth tails g).start))
      (fun g tails inside hsuccess => ⟨ih tails inside hsuccess, Graph.start_lt _⟩)
      (branches remainders) inside hsuccess
    -- behind the branches, success is still there for the default
    have hstill := Nat.lt_of_lt_of_le hsuccess hwidens.size_le
    refine hwidens.trans (Graph.widens_prependSteps hwidens.inside (hdefault hstill) ?_)
    intro entry hentry n hn
    rcases List.mem_append.1 hentry with hentry | hentry
    · exact absurd hn (hendings remainders entry hentry n)
    · exact hentries entry hentry n hn

theorem stepsInside_automaton (excluded : List Bytes) (payload : α) :
    (automaton excluded payload).StepsInside :=
  (widens_prependTree _ _ (Graph.stepsInside_single _) (Graph.start_lt _)).inside

end Exclusion

/-! ### Values in which case does not count -/

namespace Caseless

theorem widens_prependChoice {target : StateId} (depth : Nat) (choices : List Bytes) {g : Graph α}
    (inside : g.seal.StepsInside) (htarget : target < g.nodes.size) :
    g.Widens (prependChoice target depth choices g) := by
  induction depth generalizing choices g with
  | zero => exact .refl inside
  | succ depth ih =>
    obtain ⟨hwidens, hentries⟩ := Graph.widens_prependBranches
      (fun g tails =>
        if [] ∈ tails then (g, target)
        else (prependChoice target depth tails g, (prependChoice target depth tails g).start))
      (fun g tails inside htarget => by
        -- a choice that ends here leads to the target itself
        split
        · exact ⟨.refl inside, htarget⟩
        · exact ⟨ih tails inside htarget, Graph.start_lt _⟩)
      (branches choices) inside htarget
    exact hwidens.trans (Graph.widens_prependSteps hwidens.inside (by simp) hentries)

theorem stepsInside_automaton (cases : CaseMap) (text : List Char) (payload : α) :
    (automaton cases text payload).StepsInside := by
  unfold automaton
  induction text with
  | nil => exact Graph.stepsInside_prependEnd (Graph.stepsInside_single _)
  | cons c text ih => exact (widens_prependChoice _ _ ih (Graph.start_lt _)).inside

end Caseless

/-! ### All patterns -/

/-- **Steps stay inside in the automaton of every pattern.** -/
theorem Pattern.stepsInside {pattern : Pattern} {payload : α} {fa : Automaton α}
    (h : pattern.automaton payload = .ok fa) : fa.StepsInside := by
  cases pattern with
  | exactly bytes =>
    obtain rfl := Except.ok.inj h
    exact Literal.stepsInside_whole bytes payload
  | beginning bytes =>
    obtain rfl := Except.ok.inj h
    exact Literal.stepsInside_beginning bytes payload
  | shell pattern =>
    obtain rfl := Except.ok.inj h
    exact Glob.stepsInside_automaton _ payload
  | wildcard pattern =>
    obtain ⟨glob, -, rfl⟩ := map_eq_ok_iff.1 h
    exact Glob.stepsInside_automaton glob payload
  | caseless text =>
    obtain rfl := Except.ok.inj h
    exact Caseless.stepsInside_automaton _ text payload
  | noneOf excluded =>
    obtain rfl := Except.ok.inj h
    exact Exclusion.stepsInside_automaton excluded payload

/-! ### Hand-made automata -/

/-- **No byte outside the alphabet is read**, wherever the steps may lead. -/
def Automaton.ReadsAlphabet (fa : Automaton α) : Prop :=
  ∀ state byte next, fa.step state byte = some next → InAlphabet byte

theorem Automaton.StepsInside.readsAlphabet {fa : Automaton α} (inside : fa.StepsInside) :
    fa.ReadsAlphabet := fun state byte next hstep => (inside state byte next hstep).1

/-- Where nothing else is read, it remains that steps lead to states. -/
theorem Automaton.ReadsAlphabet.stepsInside {fa : Automaton α} (h : fa.ReadsAlphabet)
    (htargets : ∀ state byte next, fa.step state byte = some next → next < fa.size) :
    fa.StepsInside :=
  fun state byte next hstep => ⟨h state byte next hstep, htargets state byte next hstep⟩

private theorem Table.step_foldl_addEpsilon (table : Table) (targets : List StateId)
    (byte : UInt8) : (targets.foldl addEpsilon table).step byte = table.step byte := by
  induction targets generalizing table with
  | nil => rfl
  | cons target targets ih => rw [List.foldl_cons, ih, step_addEpsilon]

section Drafts

variable [DecidableEq α]

theorem NodeDraft.inAlphabet_of_step {draft : NodeDraft α} {node : Node α} (h : draft.node = .ok node)
    {byte : UInt8} {next : StateId} (hstep : node.table.step byte = some next) :
    InAlphabet byte := by
  cases draft with
  | leaf payloads =>
    obtain rfl := Except.ok.inj h
    -- no step leads out of a leaf
    rw [Table.step_empty] at hstep
    contradiction
  | table default entries epsilons =>
    obtain ⟨steps, hsteps, h⟩ := bind_eq_ok_iff.1 h
    obtain rfl := Except.ok.inj h
    -- epsilon edges are no steps
    rw [Table.step_foldl_addEpsilon] at hstep
    rw [(Table.ofEntries?_eq_ok_iff.1 hsteps).2, Table.step_ofEntries] at hstep
    by_contra hbyte
    rw [if_neg hbyte] at hstep
    contradiction

/-- Every state of a hand-made automaton was asked for. -/
theorem Automaton.exists_draft_of_mem {drafts : List (NodeDraft α)} {start : Option StateId}
    {fa : Automaton α} (h : ofDrafts drafts start = .ok fa) {node : Node α}
    (hnode : node ∈ fa.nodes) : ∃ draft ∈ drafts, draft.node = .ok node := by
  obtain ⟨nodes, hnodes, h⟩ := bind_eq_ok_iff.1 h
  obtain ⟨graph, hgraph, h⟩ := bind_eq_ok_iff.1 h
  obtain rfl := Except.ok.inj h
  -- where the graph is not refused it has the states as they were asked for
  have hgraphNodes : graph.nodes = nodes.toArray := by
    unfold Graph.ofNodes at hgraph
    split at hgraph
    · contradiction
    · split at hgraph
      · split at hgraph
        · rw [← Except.ok.inj hgraph]
        · contradiction
      · contradiction
  have hmem : node ∈ graph.nodes := hnode
  rw [hgraphNodes, List.mem_toArray] at hmem
  exact exists_of_mem_mapM hnodes hmem

/-- **A hand-made automaton reads bytes of the alphabet only.** -/
theorem Automaton.readsAlphabet_ofDrafts {drafts : List (NodeDraft α)} {start : Option StateId}
    {fa : Automaton α} (h : ofDrafts drafts start = .ok fa) : fa.ReadsAlphabet := by
  intro state byte next hstep
  unfold step at hstep
  split at hstep
  · contradiction
  · next node hnode =>
    obtain ⟨draft, -, hdraft⟩ := exists_draft_of_mem h (Array.mem_of_getElem? hnode)
    exact NodeDraft.inAlphabet_of_step hdraft hstep

end Drafts

end ByteMatch
