import Mathlib.Data.List.Sort
import ByteMatch.Draft
import ByteMatch.Proofs.Transparency

/-!
# In which order cached walks list payloads

As long as caching is on, a walk through a cache comes through closed sets of states, and these are
given by the automaton and the value alone: the closure of the start, then after each byte the closure
of where the byte leads, up to the first set with nothing in it. `Automaton.SetsOf` says so in terms of
paths and steps. There is exactly one such sequence of sets (`Automaton.exists_setsOf`).

A kept set has one list of payloads, those of its members in ascending order, whichever walk has kept
it. So the list that is found is that of the sets one after the other
(`Cache.trail_lists_sets`), and nothing in it tells where the context has been before
(`Context.enabled_walks_list_the_sets`). Only where caching is off, or goes off on the way, may a walk
list payloads in another order.
-/

namespace ByteMatch

variable {α : Type}

namespace Automaton

variable {fa : Automaton α} {sources members next : List StateId} {byte : UInt8}
  {bytes : Bytes} {sets : List (List StateId)}

/-! ### Closures, written down in one way -/

/-- The members are the states to which epsilon edges lead from the sources, in ascending order. -/
structure AscendingClosure (fa : Automaton α) (sources members : List StateId) : Prop where
  ascending : members.Pairwise (· < ·)
  closure : fa.IsClosure sources members

/-- There is one way to write a closure down. -/
theorem AscendingClosure.unique (h : fa.AscendingClosure sources members)
    (h' : fa.AscendingClosure sources next) : members = next := by
  apply h.ascending.eq_of_mem_iff h'.ascending
  intro t
  rw [h.closure t, h'.closure t]

theorem ascendingClosure_sorted (hsources : ∀ s ∈ sources, s < fa.size) :
    fa.AscendingClosure sources (StateSet.sorted (fa.closureAll sources)) where
  ascending := StateSet.ascending_sorted _
  closure := isClosure_sorted hsources

theorem ascendingClosure_start (fa : Automaton α) :
    fa.AscendingClosure [fa.start] (StateSet.sorted (fa.closure fa.start)) := by
  rw [← fa.closureAll_start]
  exact ascendingClosure_sorted fa.lt_size_of_mem_start

/-- Successors that were worked out are the closure of where the byte leads. -/
theorem ascendingClosure_of_successors (h : fa.successors members byte = .ok next) :
    fa.AscendingClosure (fa.stepAll members byte) next where
  ascending := (closedSet_of_successors h).ascending
  closure := isClosure_of_successors h

/-- A byte that is not read leads nowhere. -/
private theorem ascendingClosure_of_not_inAlphabet (inside : fa.StepsInside)
    (hbyte : ¬ InAlphabet byte) (members : List StateId) :
    fa.AscendingClosure (fa.stepAll members byte) [] := by
  have hnone : fa.stepAll members byte = [] := by
    refine List.filterMap_eq_nil_iff.2 fun s _ => ?_
    cases hstep : fa.step s byte with
    | none => rfl
    | some n => exact absurd (inside _ _ _ hstep).1 hbyte
  rw [hnone]
  exact ⟨.nil, by simp [IsClosure]⟩

/-! ### The sets of a value -/

/-- **The sets through which bytes lead**, each the closure of where the byte leads from the one before
it. An empty set is not one of them, and there is none after it. -/
inductive ComesThrough (fa : Automaton α) : List StateId → Bytes → List (List StateId) → Prop
  | nowhere (bytes : Bytes) : ComesThrough fa [] bytes []
  | last {members : List StateId} : members ≠ [] → ComesThrough fa members [] [members]
  | onward {members next : List StateId} {byte : UInt8} {rest : Bytes}
      {sets : List (List StateId)} : members ≠ [] →
      fa.AscendingClosure (fa.stepAll members byte) next → ComesThrough fa next rest sets →
      ComesThrough fa members (byte :: rest) (members :: sets)

/-- **The sets of a value**: those through which its bytes and the terminator lead from the closure
of the start. -/
def SetsOf (fa : Automaton α) (value : Bytes) (sets : List (List StateId)) : Prop :=
  ∃ first, fa.AscendingClosure [fa.start] first ∧ fa.ComesThrough first (symbols value) sets

theorem ComesThrough.unique (h : fa.ComesThrough members bytes sets)
    {sets' : List (List StateId)} (h' : fa.ComesThrough members bytes sets') : sets = sets' := by
  induction h generalizing sets' with
  | nowhere bytes =>
    cases h' with
    | nowhere => rfl
    | last hne => exact absurd rfl hne
    | onward hne => exact absurd rfl hne
  | last hne =>
    cases h' with
    | nowhere => exact absurd rfl hne
    | last => rfl
  | onward hne hnext _ ih =>
    cases h' with
    | nowhere => exact absurd rfl hne
    | onward _ hnext' hrest' =>
      -- both go on from the same set
      obtain rfl := hnext.unique hnext'
      rw [ih hrest']

/-- There are such sets if steps stay inside. -/
theorem exists_comesThrough (inside : fa.StepsInside) (members : List StateId) (bytes : Bytes) :
    ∃ sets, fa.ComesThrough members bytes sets := by
  -- an empty set ends the sequence, whatever bytes are left
  induction bytes generalizing members with
  | nil =>
    by_cases hne : members = []
    · subst hne
      exact ⟨[], .nowhere []⟩
    · exact ⟨[members], .last hne⟩
  | cons byte rest ih =>
    by_cases hne : members = []
    · subst hne
      exact ⟨[], .nowhere _⟩
    · obtain ⟨next, hnext⟩ := successors_isOk inside members byte
      obtain ⟨sets, hsets⟩ := ih next
      exact ⟨members :: sets, .onward hne (ascendingClosure_of_successors hnext) hsets⟩

/-- **A value has its sets**, one sequence of them. -/
theorem exists_setsOf (inside : fa.StepsInside) (value : Bytes) :
    ∃ sets, ∀ sets', fa.SetsOf value sets' ↔ sets' = sets := by
  have hstart := fa.ascendingClosure_start
  obtain ⟨sets, hsets⟩ := exists_comesThrough inside _ (symbols value)
  refine ⟨sets, fun sets' => ⟨?_, ?_⟩⟩
  · rintro ⟨first, hfirst, hsets'⟩
    obtain rfl := hfirst.unique hstart
    exact hsets'.unique hsets
  · rintro rfl
    exact ⟨_, hstart, hsets⟩

end Automaton

/-! ### Walks that do not run out of budget -/

section Enabled

variable [DecidableEq α] {fa : Automaton α}

/-- It makes no difference whether duplicates within a set are dropped when it is kept. -/
private theorem collect_flatMap_eraseDups (payloads : List StateId → List α) (incoming : List α)
    (sets : List (List StateId)) :
    collect incoming (sets.flatMap fun set => (payloads set).eraseDups) =
      collect incoming (sets.flatMap payloads) := by
  induction sets generalizing incoming with
  | nil => rfl
  | cons set sets ih =>
    -- the first set is taken to what came in, where its duplicates may be dropped or put back
    unfold collect at ih ⊢
    rw [List.flatMap_cons, List.flatMap_cons, ← List.append_assoc, ← List.append_assoc]
    calc ((incoming ++ (payloads set).eraseDups) ++
          sets.flatMap fun set => (payloads set).eraseDups).eraseDups
        = ((incoming ++ (payloads set).eraseDups) ++ sets.flatMap payloads).eraseDups := ih _
      _ = ((incoming ++ (payloads set).eraseDups).eraseDups ++ sets.flatMap payloads).eraseDups :=
        (eraseDups_append_left _ _).symm
      _ = ((incoming ++ payloads set).eraseDups ++ sets.flatMap payloads).eraseDups := by
        rw [eraseDups_append_right]
      _ = ((incoming ++ payloads set) ++ sets.flatMap payloads).eraseDups :=
        eraseDups_append_left _ _

namespace Cache

variable {cache cache' : Cache α} {source : Nat} {members : List StateId} {byte : UInt8}

/-- A set is not located only if there is no room for it, and caching is off then. -/
private theorem disabled_of_locate_eq_none (h : cache.locate fa members = (none, cache')) :
    cache'.budget.disabled = true := by
  rcases locate_cases h with ⟨i, -, hfound, -⟩ | ⟨-, -, -, rfl⟩ | ⟨budget, -, -, hfound, -⟩
  · contradiction
  · rfl
  · contradiction

theorem disabled_of_locateStart_eq_none (h : cache.locateStart fa = (none, cache')) :
    cache'.budget.disabled = true := by
  rcases locateStart_cases h with ⟨i, -, hfound, -⟩ | ⟨-, -, hlocate⟩ | ⟨i, located, -, -, hfound, -⟩
  · contradiction
  · exact disabled_of_locate_eq_none hlocate
  · contradiction

/-- A step finds the budget exhausted only where it switches caching off. -/
theorem disabled_of_step_exhausted (h : cache.step fa source byte = .ok (.exhausted, cache')) :
    cache'.budget.disabled = true := by
  rcases step_cases h with ⟨-, hmove, -⟩ | ⟨subset, -, ⟨target, -, hmove, -⟩ | ⟨-, hmove, -⟩ | ⟨-, hwork⟩⟩
  · contradiction
  · contradiction
  · contradiction
  · -- the move had to be worked out
    obtain ⟨next, -, ⟨-, hmove, -⟩ | ⟨-, -, hlocate⟩ | ⟨-, target, located, -, hmove, -⟩⟩ :=
      workOut_cases hwork
    · contradiction
    · exact disabled_of_locate_eq_none hlocate
    · contradiction

/-- **A walk from a kept set lists the sets on its way**, the set itself left out, if caching is still
on at its end. -/
theorem trail_lists_sets (inside : fa.StepsInside) {threshold : Nat} {bytes : Bytes}
    {found : List α} (h : SubsetDfa.Exact fa cache.dfa) (hsource : cache.dfa.Keeps source members)
    (htrail : trail fa threshold cache source bytes = .ok (found, cache'))
    (hon : cache'.budget.disabled = false) :
    ∃ later, fa.ComesThrough members bytes (members :: later) ∧
      found = later.flatMap fun set => (fa.payloadsAll set).eraseDups := by
  -- the cache is another one after each byte, but an exact one, in which the set come to is kept
  induction bytes generalizing cache source members found with
  | nil =>
    obtain ⟨rfl, rfl⟩ := Prod.mk.inj (Except.ok.inj htrail)
    exact ⟨[], .last (h.ne_nil hsource), rfl⟩
  | cons byte rest ih =>
    have hne := h.ne_nil hsource
    rcases trail_cases htrail with ⟨hstep, rfl⟩ | ⟨hstep, -⟩ |
      ⟨target, stepped, behind, hstep, hbehind, rfl⟩
    · -- the next set is empty, be it that the byte is not read or that it leads nowhere
      obtain ⟨-, ⟨hbyte, -⟩ | ⟨next, hnext, hdead⟩⟩ := step_spec h hsource hstep
      · have hnext := Automaton.ascendingClosure_of_not_inAlphabet inside hbyte members
        exact ⟨[], .onward hne hnext (.nowhere rest), rfl⟩
      · obtain rfl : next = [] := hdead
        have hclosure := Automaton.ascendingClosure_of_successors hnext
        exact ⟨[], .onward hne hclosure (.nowhere rest), rfl⟩
    · -- caching would be off
      have hoff := disabled_of_step_exhausted hstep
      exact absurd (hon.symm.trans hoff) Bool.false_ne_true
    · -- the set to which the byte leads is listed first
      obtain ⟨hgrows, ⟨-, hdead⟩ | ⟨next, hnext, htarget⟩⟩ := step_spec h hsource hstep
      · contradiction
      · obtain ⟨later, hlater, rfl⟩ := ih hgrows.exact htarget hbehind
        have hclosure := Automaton.ascendingClosure_of_successors hnext
        refine ⟨next :: later, .onward hne hclosure hlater, ?_⟩
        rw [hgrows.exact.payloadsOf_eq htarget, List.flatMap_cons]

/-- **A walk through an exact cache lists the sets of the value**, if caching is still on at its end. -/
theorem traverse_lists_sets (inside : fa.StepsInside) {threshold : Nat} {value : Bytes}
    {incoming found : List α} {sets : List (List StateId)} (hsets : fa.SetsOf value sets)
    (h : SubsetDfa.Exact fa cache.dfa)
    (hwalk : cache.traverse fa threshold value incoming = .ok (found, cache'))
    (hon : cache'.budget.disabled = false) :
    found = (incoming ++ sets.flatMap fa.payloadsAll).eraseDups := by
  obtain ⟨first, hfirst, hsets⟩ := hsets
  obtain rfl := hfirst.unique fa.ascendingClosure_start
  rcases traverse_cases hwalk with ⟨met, hlocate, -, -⟩ |
    ⟨source, located, met, hlocate, hmet, rfl⟩
  · -- not even the start could be kept
    have hoff := disabled_of_locateStart_eq_none hlocate
    exact absurd (hon.symm.trans hoff) Bool.false_ne_true
  · obtain ⟨hgrows, hkeeps⟩ := locateStart_spec h hlocate
    have hsource := hkeeps source rfl
    obtain ⟨later, hlater, rfl⟩ := trail_lists_sets inside hgrows.exact hsource hmet hon
    -- the sets that were come through are those of the value
    rw [hsets.unique hlater, hgrows.exact.payloadsOf_eq hsource]
    exact collect_flatMap_eraseDups fa.payloadsAll incoming (_ :: later)

end Cache

end Enabled

namespace Context

variable [DecidableEq α] {published : Publications α} {ctx ctx' : Context α}
  {snapshot : Snapshot α} {fa : Automaton α} {value : Bytes} {incoming found : List α}

/-- A sound context that walks with caching on lists the sets of the value. -/
theorem Sound.lists_sets (h : Sound published ctx) (hsnapshot : snapshot.PublishedIn published)
    (hepsilon : snapshot.automaton.deterministic = false)
    (inside : snapshot.automaton.StepsInside) {sets : List (List StateId)}
    (hsets : snapshot.automaton.SetsOf value sets)
    (hwalk : ctx.traverseCached snapshot value incoming = .ok (found, ctx'))
    (hon : ctx'.budget.disabled = false) :
    found = (incoming ++ sets.flatMap snapshot.automaton.payloadsAll).eraseDups := by
  rcases traverseCached_cases hwalk with ⟨hplain, -, rfl⟩ | ⟨-, cache, last, hcache, hmet, rfl⟩
  · -- caching was off before, and stays off
    rw [hepsilon, Bool.false_or] at hplain
    exact absurd (hon.symm.trans hplain) Bool.false_ne_true
  · obtain ⟨opened, hopened, hexact, -⟩ := h.openCache hsnapshot
    obtain rfl : opened = cache := Except.ok.inj (hopened.symm.trans hcache)
    exact Cache.traverse_lists_sets inside hsets hexact hmet hon

/-- What some context finds in the value while caching stays on: whatever it has walked before and
wherever the automaton was published, caching is on when it has walked the value. -/
def FindsEnabled (fa : Automaton α) (value : Bytes) (incoming found : List α) : Prop :=
  ∃ (published : Publications α) (ctx ctx' : Context α) (snapshot : Snapshot α),
    Reachable published ctx ∧ snapshot.PublishedIn published ∧ snapshot.automaton = fa ∧
      ctx.traverseCached snapshot value incoming = .ok (found, ctx') ∧
      ctx'.budget.disabled = false

/-- **The list is that of the sets.** An automaton that has epsilon edges and a value determine one
sequence of closed sets. Any context, with any history and any capacity, gives a result for the value,
and if caching is on afterwards, the result lists what came in and then, set by set, the payloads of
the members in ascending order, each payload where it comes first. So two contexts that keep caching
on find the same list, whatever either of them has walked before. -/
theorem enabled_walks_list_the_sets (hepsilon : fa.deterministic = false)
    (inside : fa.StepsInside) (value : Bytes) :
    ∃ sets, (∀ sets', fa.SetsOf value sets' ↔ sets' = sets) ∧
      (∀ (published : Publications α) (ctx : Context α) (snapshot : Snapshot α)
        (incoming : List α), Reachable published ctx → snapshot.PublishedIn published →
        snapshot.automaton = fa →
        ∃ found ctx', ctx.traverseCached snapshot value incoming = .ok (found, ctx') ∧
          (ctx'.budget.disabled = false →
            found = (incoming ++ sets.flatMap fa.payloadsAll).eraseDups)) ∧
      ∀ incoming found found', FindsEnabled fa value incoming found →
        FindsEnabled fa value incoming found' → found = found' := by
  obtain ⟨sets, hsets⟩ := Automaton.exists_setsOf inside value
  have hof : fa.SetsOf value sets := (hsets sets).2 rfl
  have hlist : ∀ incoming found, FindsEnabled fa value incoming found →
      found = (incoming ++ sets.flatMap fa.payloadsAll).eraseDups := by
    rintro incoming found ⟨published, ctx, ctx', snapshot, hctx, hsnapshot, rfl, hwalk, hon⟩
    exact hctx.sound.lists_sets hsnapshot hepsilon inside hof hwalk hon
  refine ⟨sets, hsets, ?_, fun incoming found found' hfound hfound' => ?_⟩
  · rintro published ctx snapshot incoming hctx hsnapshot rfl
    obtain ⟨found, ctx', hwalk⟩ := hctx.sound.traverseCached_isOk hsnapshot inside value incoming
    exact ⟨found, ctx', hwalk, fun hon => hlist incoming found
      ⟨published, ctx, ctx', snapshot, hctx, hsnapshot, rfl, hwalk, hon⟩⟩
  · -- the list does not depend on the context
    rw [hlist incoming found hfound, hlist incoming found' hfound']

/-- A hand-made automaton in which `a` leads from the start to the state of the payload 2, and to that
of the payload 1, which has the lower number, after an epsilon edge. A context that has room for two
sets has walked `b` before; it lists the payloads as any other does, while a walk without the cache
has them in the other order. -/
theorem enabled_walks_list_the_sets_forked :
    ∃ fa : Automaton Nat,
      Automaton.ofDrafts [.table none [(97, some 3)] [1], .table none [(97, some 2)] [], .leaf [1],
        .leaf [2]] (some 0) = .ok fa ∧
      fa.deterministic = false ∧ fa.StepsInside ∧ fa.traverse 500 [97] [7, 7] = .ok [7, 2, 1] ∧
      let snapshot : Snapshot Nat := .first 0 fa
      let published : Publications Nat := fun id => if id = 0 then some snapshot else none
      let fresh : Context Nat := ofConfig (Config.default.setCapacity 2)
      snapshot.PublishedIn published ∧
        (∃ sets, fa.SetsOf [97] sets ∧ [7, 1, 2] = ([7, 7] ++ sets.flatMap fa.payloadsAll).eraseDups) ∧
        (∃ before ctx last, fresh.traverseCached snapshot [98] [] = .ok (before, ctx) ∧
          Reachable published ctx ∧
          ctx.traverseCached snapshot [97] [7, 7] = .ok ([7, 1, 2], last) ∧
          last.budget.disabled = false) ∧
        ∀ found, FindsEnabled fa [97] [7, 7] found → found = [7, 1, 2] := by
  obtain ⟨fa, hfa, hepsilon, hruns, hplain, hboth⟩ : ∃ fa : Automaton Nat,
      Automaton.ofDrafts [.table none [(97, some 3)] [1], .table none [(97, some 2)] [], .leaf [1],
        .leaf [2]] (some 0) = .ok fa ∧
      fa.deterministic = false ∧
      (∀ node ∈ fa.nodes, ∀ run ∈ node.table.steps,
        run.1 ≤ alphabetSize ∧ ∀ next ∈ run.2, next < fa.size) ∧
      fa.traverse 500 [97] [7, 7] = .ok [7, 2, 1] ∧
      (fun result => (result.1, result.2.budget.disabled)) <$> (do
        let (_, ctx) ←
          (ofConfig (Config.default.setCapacity 2)).traverseCached (.first 0 fa) [98] []
        ctx.traverseCached (.first 0 fa) [97] [7, 7]) = .ok ([7, 1, 2], false) :=
    ⟨_, rfl, by decide +kernel, by decide +kernel, by decide +kernel, by
      -- down to the lists that are sorted, by merging, which the kernel does not evaluate
      simp only [traverseCached, Cache.traverse, Cache.locateStart, symbols, List.cons_append,
        List.nil_append, Cache.trail, Cache.step, Cache.workOut, Automaton.successors,
        StateSet.sorted_eq_insertionSort]
      decide +kernel⟩
  have inside : fa.StepsInside := Automaton.stepsInside_of_runs hruns
  refine ⟨fa, hfa, hepsilon, inside, hplain, ?_⟩
  intro snapshot published fresh
  have hsnapshot : snapshot.PublishedIn published := rfl
  -- the two walks apart
  obtain ⟨⟨found, last⟩, hwalks, hresult⟩ := map_eq_ok_iff.1 hboth
  obtain ⟨⟨before, ctx⟩, hbefore, hwalk⟩ := bind_eq_ok_iff.1 hwalks
  obtain ⟨rfl, hon⟩ := Prod.mk.inj hresult
  have hctx : Reachable published ctx := .walked (.fresh _) hsnapshot hbefore
  obtain ⟨sets, hsets, hgives, hsame⟩ := enabled_walks_list_the_sets hepsilon inside [97]
  obtain ⟨found, ctx', hwalk', hlist⟩ := hgives published ctx snapshot [7, 7] hctx hsnapshot rfl
  obtain ⟨rfl, rfl⟩ := Prod.mk.inj (Except.ok.inj (hwalk'.symm.trans hwalk))
  have hfinds : FindsEnabled fa [97] [7, 7] [7, 1, 2] :=
    ⟨published, ctx, ctx', snapshot, hctx, hsnapshot, rfl, hwalk, hon⟩
  exact ⟨hsnapshot, ⟨sets, (hsets sets).2 rfl, hlist hon⟩,
    ⟨before, ctx, ctx', hbefore, hctx, hwalk, hon⟩,
    fun other hother => hsame [7, 7] other [7, 1, 2] hother hfinds⟩

end Context

end ByteMatch
