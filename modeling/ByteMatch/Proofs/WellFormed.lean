import ByteMatch.Proofs.Builders
import ByteMatch.Proofs.CheckedScans
import ByteMatch.Proofs.MatcherLanguage

/-!
# Walks of what is put together never fault

An automaton is `Automaton.WellFormed` if no number in it leads outside and all of its tables have
the form that they should. This holds of the automaton of every pattern and of every union, even of a
union of hand-made automata whose own steps lead outside: a union has a state for every pair that it
comes to, and where a part has no state there, the pair leads nowhere on that side.

`Automaton.Composed` are the automata that come about in these ways, `Matcher.Grown` the matchers
that unite such automata. Walks of them never fault, cached or not, whatever the context has walked
before (`Context.composed_walks_never_fault`). This is said of the walks that check every look-up: each
state, each target in a table, each kept set and each place in a value that they come to is there, what
is cached for an edition is walked for that edition only, and no more sets are given back than were
taken out. The walks without these checks find the same.
-/

namespace ByteMatch

variable {α : Type}

/-- **A well-formed automaton**: every number in it is that of one of its states, and its tables have
the form that they should. -/
structure Automaton.WellFormed (fa : Automaton α) : Prop where
  start_lt : fa.start < fa.size
  steps_lt : ∀ node ∈ fa.nodes, ∀ s, some s ∈ node.table.steps.values → s < fa.size
  epsilons_lt : ∀ node ∈ fa.nodes, ∀ e ∈ node.table.epsilons, e < fa.size
  /-- Every state has a closure. -/
  closures_size : fa.closures.size = fa.size
  closures_lt : ∀ closure ∈ fa.closures, ∀ s ∈ closure, s < fa.size
  tables : fa.TablesWellFormed

namespace Automaton

/-- Closures list states only. -/
private theorem lt_size_of_mem_closures (fa : Automaton α) {closure : List StateId}
    (hclosure : closure ∈ fa.closures) {s : StateId} (hs : s ∈ closure) : s < fa.size := by
  -- the closure is that of a state, and what it lists is reached from there
  obtain ⟨i, hi⟩ := Array.mem_iff_getElem?.1 hclosure
  have hlt : i < fa.size := by
    rw [← fa.size_closures]
    exact (Array.getElem?_eq_some_iff.1 hi).1
  have hmem : s ∈ fa.closure i := by
    rw [Automaton.closure, hi, Option.getD_some]
    exact hs
  exact lt_size_of_mem_closure hlt hmem

/-- **Where steps stay inside and tables have their form, all is well-formed.** -/
theorem StepsInside.wellFormed {fa : Automaton α} (inside : fa.StepsInside)
    (tables : fa.TablesWellFormed) : fa.WellFormed where
  start_lt := fa.start_lt
  steps_lt node hnode s hs := by
    obtain ⟨state, hstate⟩ := Array.mem_iff_getElem?.1 hnode
    -- a step that stands in the table can be taken
    obtain ⟨i, hi, hget⟩ := (tables node hnode).packed.exists_get? hs
    have hbyte : (UInt8.ofNat i).toNat = i := toNat_ofNat_of_lt hi
    have hstep : fa.step state (UInt8.ofNat i) = some s := by
      rw [step, hstate]
      show node.table.target (UInt8.ofNat i).toNat = some s
      rw [hbyte, Table.target, hget, Option.getD_some]
    exact (inside state _ s hstep).2
  epsilons_lt := fa.epsilons_lt
  closures_size := fa.size_closures
  closures_lt _ hclosure _ hs := fa.lt_size_of_mem_closures hclosure hs
  tables := tables

end Automaton

/-! ### Tables of patterns -/

namespace Graph

theorem tablesWellFormed_single (payloads : List α) : (single payloads).TablesWellFormed := by
  intro node hnode
  obtain rfl : node = ⟨Table.empty, payloads⟩ := by simpa [single] using hnode
  exact Table.wellFormed_uniform none

theorem TablesWellFormed.prepend {g : Graph α} (h : g.TablesWellFormed) {table : Table}
    (htable : table.WellFormed) (hle : ∀ e ∈ table.epsilons, e ≤ g.nodes.size) :
    (g.prepend table hle).TablesWellFormed := by
  intro node hnode
  rcases Array.mem_push.1 hnode with hold | rfl
  · exact h node hold
  · exact htable

theorem keptByBuilding_tablesWellFormed :
    KeptByBuilding (TablesWellFormed : Graph α → Prop) where
  accept payload := tablesWellFormed_single [payload]
  prependSteps _ default entries h := h.prepend (Table.wellFormed_ofEntries default entries) _
  prependStar g h := h.prepend ((Table.wellFormed_ofEntries _ _).addEpsilon g.start) _

end Graph

theorem Pattern.tablesWellFormed {pattern : Pattern} {payload : α} {fa : Automaton α}
    (h : pattern.automaton payload = .ok fa) : fa.TablesWellFormed :=
  graph_keeps Graph.keptByBuilding_tablesWellFormed h

/-! ### Tables of unions -/

namespace Automaton

private theorem nodup_epsilons_tableAt {fa : Automaton α} (h : fa.TablesWellFormed)
    (state : Option StateId) : (fa.tableAt state).epsilons.Nodup := by
  unfold tableAt
  split
  · exact List.nodup_nil
  · next node hnode =>
    obtain ⟨s, -, hs⟩ := Option.bind_eq_some_iff.1 hnode
    exact (h node (Array.mem_of_getElem? hs)).epsilons_nodup

namespace Union

variable {a b : Automaton α}

/-- No pair follows another one twice by epsilon edges. -/
theorem nodup_epsilons (ha : a.TablesWellFormed) (hb : b.TablesWellFormed) (p : StatePair) :
    (epsilons a b p).Nodup := by
  have hleft : Function.Injective fun e : StateId => (⟨some e, none⟩ : StatePair) :=
    fun e e' heq => Option.some.inj (congrArg StatePair.left heq)
  have hright : Function.Injective fun e : StateId => (⟨none, some e⟩ : StatePair) :=
    fun e e' heq => Option.some.inj (congrArg StatePair.right heq)
  refine ((nodup_epsilons_tableAt ha p.left).map hleft).append
    ((nodup_epsilons_tableAt hb p.right).map hright) ?_
  -- one part is left behind on either side, and it is not the same one
  intro q hq hq'
  obtain ⟨e, -, rfl⟩ := List.mem_map.1 hq
  obtain ⟨e', -, heq⟩ := List.mem_map.1 hq'
  exact Option.some_ne_none e (congrArg StatePair.left heq).symm

variable [DecidableEq α]

private theorem wellFormed_node (ha : a.TablesWellFormed) (hb : b.TablesWellFormed)
    (numbering : Numbering StatePair) (p : StatePair) :
    (node a b numbering p).table.WellFormed where
  packed := by
    have hsteps : (steps a b p).Packed alphabetSize :=
      Table.packed_tabulate fun c hpos _ hc => steps_cuts a b p c hpos hc
    exact hsteps.mapValues (stateFor numbering)
  epsilons_nodup := by
    refine (nodup_epsilons ha hb p).filterMap ?_
    -- two pairs do not have the same state
    intro q q' j hq hq'
    have hj := getElem?_of_stateFor hq
    rw [getElem?_of_stateFor hq'] at hj
    exact (Option.some.inj hj).symm

theorem tablesWellFormed (ha : a.TablesWellFormed) (hb : b.TablesWellFormed) :
    (a.union b).TablesWellFormed := by
  intro n hn
  have hn : n ∈ (pairs a b).items.map (node a b (pairs a b)) := hn
  obtain ⟨p, -, rfl⟩ := Array.mem_map.1 hn
  exact wellFormed_node ha hb _ p

end Union

end Automaton

/-! ### Tables of hand-made automata -/

section Drafts

variable [DecidableEq α]

theorem NodeDraft.wellFormed {draft : NodeDraft α} {node : Node α} (h : draft.node = .ok node) :
    node.table.WellFormed := by
  cases draft with
  | leaf payloads =>
    obtain rfl := Except.ok.inj h
    exact Table.wellFormed_uniform none
  | table default entries epsilons =>
    obtain ⟨steps, hsteps, h⟩ := bind_eq_ok_iff.1 h
    obtain rfl := Except.ok.inj h
    obtain rfl := (Table.ofEntries?_eq_ok_iff.1 hsteps).2
    exact (Table.wellFormed_ofEntries default entries).foldl_addEpsilon epsilons

theorem Automaton.tablesWellFormed_ofDrafts {drafts : List (NodeDraft α)}
    {start : Option StateId} {fa : Automaton α} (h : ofDrafts drafts start = .ok fa) :
    fa.TablesWellFormed := by
  intro node hnode
  obtain ⟨draft, -, hdraft⟩ := exists_draft_of_mem h hnode
  exact NodeDraft.wellFormed hdraft

end Drafts

/-! ### What is put together -/

/-- **Automata that are put together**: the empty one, those of patterns, hand-made ones and unions.
Of hand-made automata it is asked only that their tables have the form that all tables have; their
steps may lead to states that are not there. -/
inductive Automaton.Assembled [DecidableEq α] : Automaton α → Prop
  | empty : Assembled Automaton.empty
  | pattern {pattern : Pattern} {payload : α} {fa : Automaton α} :
      pattern.automaton payload = .ok fa → Assembled fa
  | handMade {fa : Automaton α} : fa.TablesWellFormed → Assembled fa
  | union {a b : Automaton α} : Assembled a → Assembled b → Assembled (a.union b)

/-- **Those of them that do not stand for a hand-made automaton alone.** -/
inductive Automaton.Composed [DecidableEq α] : Automaton α → Prop
  | empty : Composed Automaton.empty
  | pattern {pattern : Pattern} {payload : α} {fa : Automaton α} :
      pattern.automaton payload = .ok fa → Composed fa
  | union {a b : Automaton α} : Assembled a → Assembled b → Composed (a.union b)

section Composed

variable [DecidableEq α] {fa : Automaton α}

theorem Automaton.Assembled.tables (h : fa.Assembled) : fa.TablesWellFormed := by
  induction h with
  | empty => exact Graph.tablesWellFormed_single []
  | pattern hfa => exact Pattern.tablesWellFormed hfa
  | handMade tables => exact tables
  | union _ _ iha ihb => exact Union.tablesWellFormed iha ihb

theorem Automaton.Composed.assembled (h : fa.Composed) : fa.Assembled := by
  cases h with
  | empty => exact .empty
  | pattern hfa => exact .pattern hfa
  | union ha hb => exact .union ha hb

/-- A union keeps inside whatever its parts do. -/
theorem Automaton.Composed.stepsInside (h : fa.Composed) : fa.StepsInside := by
  cases h with
  | empty => exact stepsInside_empty
  | pattern hfa => exact Pattern.stepsInside hfa
  | union _ _ => exact Union.stepsInside _ _

theorem Automaton.Composed.wellFormed (h : fa.Composed) : fa.WellFormed :=
  h.stepsInside.wellFormed h.assembled.tables

/-- **The matchers that come about by additions**, of patterns and of any automata that are put
together. -/
inductive Matcher.Grown : Matcher α → Prop
  | empty (id : Nat) : Grown (Matcher.empty id)
  | pattern {matcher matcher' : Matcher α} (id : Nat) (asked : Pattern) (payload : α) :
      Grown matcher → matcher.add id asked payload = .ok matcher' → Grown matcher'
  | automaton {matcher : Matcher α} (id : Nat) {fa : Automaton α} :
      Grown matcher → fa.Assembled → Grown (matcher.addAutomaton id fa)

/-- Additions are united with what is there, and at first that is the empty automaton. -/
theorem Matcher.Grown.composed {matcher : Matcher α} (h : matcher.Grown) :
    matcher.snapshot.automaton.Composed := by
  induction h with
  | empty id => exact .empty
  | pattern id asked payload _ hadd ih =>
    obtain ⟨scan, -, rfl⟩ | ⟨-, fa, hfa, rfl⟩ := add_cases hadd
    · exact ih
    · exact .union ih.assembled (.pattern hfa)
  | automaton id _ hfa ih => exact .union ih.assembled hfa

/-- Scans are made of shell-style patterns. -/
private theorem Matcher.exists_pattern_of_scanFor? {asked : Pattern} {scan : LiteralScan}
    (h : scanFor? asked = some scan) : ∃ pattern, LiteralScan.ofPattern pattern = some scan := by
  cases asked with
  | shell pattern => exact ⟨pattern, h⟩
  | _ => contradiction

/-- Scans are added for patterns only. -/
theorem Matcher.Grown.scansPatterns {matcher : Matcher α} (h : matcher.Grown) :
    matcher.ScansPatterns := by
  induction h with
  | empty id => exact fun _ hentry => absurd hentry List.not_mem_nil
  | pattern id asked payload _ hadd ih =>
    obtain ⟨scan, hscan, rfl⟩ | ⟨-, fa, -, rfl⟩ := add_cases hadd
    · -- one scan more, and it is made of the pattern that was asked for
      intro entry hentry
      rcases List.mem_append.1 hentry with hold | hnew
      · exact ih entry hold
      · obtain rfl := List.mem_singleton.1 hnew
        exact exists_pattern_of_scanFor? hscan
    · exact ih
  | automaton id _ _ ih => exact ih

/-- Matching does not fault if walking the automaton of the matcher does not. -/
theorem Matcher.matchValue_isOk {matcher : Matcher α} {published : Publications α}
    (hmatcher : matcher.snapshot.PublishedIn published)
    (inside : matcher.snapshot.automaton.StepsInside) {ctx : Context α}
    (hctx : ctx.Reachable published) (value : Bytes) (incoming : List α) :
    ∃ found ctx', matcher.matchValue ctx value incoming = .ok (found, ctx') ∧
      ctx'.Reachable published := by
  unfold matchValue
  split
  · -- where no pattern was united the context is not asked
    exact ⟨_, ctx, rfl, hctx⟩
  · obtain ⟨found, ctx', hwalk⟩ := hctx.sound.traverseCached_isOk hmatcher inside value
      (collect incoming (matcher.scanned value))
    exact ⟨found, ctx', hwalk, .walked hctx hmatcher hwalk⟩

/-- **Walks of what is put together never fault.** Let the literals that are scanned for be looked for by
any routine that finds the first place, and let a context have walked anything without a fault.

In every automaton that is put together, checking every look-up makes no difference to a walk, without a
context, with one or through its cache; so a history is free of faults by these walks if it is by those.

The automata of patterns, the empty one and all unions, even of hand-made automata whose steps lead to
states that are not there, are well-formed. With every look-up checked, every value is walked in them to
the end, whatever comes in and whatever the context has walked before; and so it is matched by every
matcher. A cached walk leaves a context behind with which the same holds again. -/
theorem Context.composed_walks_never_fault {published : Publications α} {ctx : Context α}
    {find : Finder} (hctx : ctx.Reachable published) (hfind : find.FindsFirst) :
    (∀ fa : Automaton α, fa.Assembled → ∀ value incoming,
      (∀ threshold, fa.checkedTraverse threshold value incoming =
        fa.traverse threshold value incoming) ∧
      ctx.checkedTraverse fa value incoming = ctx.traverse fa value incoming) ∧
    (∀ snapshot : Snapshot α, snapshot.PublishedIn published → snapshot.automaton.Assembled →
      ∀ value incoming, ctx.checkedTraverseCached snapshot value incoming =
        ctx.traverseCached snapshot value incoming) ∧
    (∀ fa : Automaton α, fa.Composed → fa.WellFormed ∧ ∀ value incoming,
      (∀ threshold, ∃ found, fa.checkedTraverse threshold value incoming = .ok found) ∧
        ∃ found, ctx.checkedTraverse fa value incoming = .ok found) ∧
    (∀ snapshot : Snapshot α, snapshot.PublishedIn published → snapshot.automaton.Composed →
      ∀ value incoming, ∃ found ctx',
        ctx.checkedTraverseCached snapshot value incoming = .ok (found, ctx') ∧
          ctx'.Reachable published) ∧
    ∀ matcher : Matcher α, matcher.Grown → matcher.snapshot.PublishedIn published →
      matcher.snapshot.automaton.WellFormed ∧ ∀ value incoming, ∃ found ctx',
        matcher.checkedMatchValue find ctx value incoming = .ok (found, ctx') ∧
          matcher.matchValue ctx value incoming = .ok (found, ctx') ∧ ctx'.Reachable published := by
  have hwalk : ∀ fa : Automaton α, fa.Assembled → ∀ threshold value incoming,
      fa.checkedTraverse threshold value incoming = fa.traverse threshold value incoming :=
    fun fa hfa => Automaton.checkedTraverse_eq hfa.tables
  have hcached : ∀ snapshot : Snapshot α, snapshot.PublishedIn published →
      snapshot.automaton.Assembled → ∀ value incoming,
        ctx.checkedTraverseCached snapshot value incoming =
          ctx.traverseCached snapshot value incoming :=
    fun snapshot hsnapshot hfa => hctx.sound.checkedTraverseCached_eq hsnapshot hfa.tables
  refine ⟨fun fa hfa value incoming => ⟨fun threshold => hwalk fa hfa threshold value incoming,
    hwalk fa hfa ctx.config.threshold value incoming⟩, hcached, ?_, ?_, ?_⟩
  · -- without a cache nothing has to be known of the context
    intro fa hfa
    have hfinds : ∀ threshold value incoming, ∃ found,
        fa.checkedTraverse threshold value incoming = .ok found := by
      intro threshold value incoming
      rw [hwalk fa hfa.assembled]
      exact Automaton.traverse_isOk hfa.stepsInside threshold value incoming
    exact ⟨hfa.wellFormed, fun value incoming =>
      ⟨fun threshold => hfinds threshold value incoming, hfinds _ value incoming⟩⟩
  · -- what earlier walks have left in the cache is right for the automaton
    intro snapshot hsnapshot hfa value incoming
    obtain ⟨found, ctx', hfound⟩ :=
      hctx.sound.traverseCached_isOk hsnapshot hfa.stepsInside value incoming
    rw [hcached snapshot hsnapshot hfa.assembled]
    exact ⟨found, ctx', hfound, .walked hctx hsnapshot hfound⟩
  · intro matcher hmatcher hpublished
    -- its scans cannot fault, so what is left is the walk of its automaton
    have hfa := hmatcher.composed
    refine ⟨hfa.wellFormed, fun value incoming => ?_⟩
    obtain ⟨found, ctx', hfound, hctx'⟩ :=
      matcher.matchValue_isOk hpublished hfa.stepsInside hctx value incoming
    have hchecked := Matcher.checkedMatchValue_eq hfind hmatcher.scansPatterns hctx.sound hpublished
      hfa.assembled.tables value incoming
    exact ⟨found, ctx', hchecked.trans hfound, hfound, hctx'⟩

/-- A hand-made automaton whose only step, on `a`, leads to a state that is not there, united with
the automaton of `*a`: only by itself it faults. The union is walked with a context that has walked
`ba` before, and matched; beside it `*b` is scanned for. -/
theorem Context.composed_walks_never_fault_dangling :
    ∃ dangling : Automaton Nat,
      Automaton.ofDrafts [.table none [(97, some 7)] []] (some 0) = .ok dangling ∧
      dangling.checkedTraverse 500 [97] [] = .error (.stepOutside 7) ∧
      ∃ ending : Automaton Nat, (Pattern.shell [42, 97]).automaton 1 = .ok ending ∧
        ∃ scan, LiteralScan.ofPattern [42, 98] = some scan ∧
        let matcher :=
          (((Matcher.empty 0).addAutomaton 1 dangling).addAutomaton 2 ending).addScan scan 2
        let published : Publications Nat :=
          fun id => if id = 2 then some matcher.snapshot else none
        Finder.FindsFirst Finder.plain ∧ matcher.Grown ∧ matcher.snapshot.PublishedIn published ∧
          matcher.snapshot.automaton.Composed ∧
          ∃ found ctx,
            (Context.ofConfig Config.default).checkedTraverseCached matcher.snapshot [98, 97] [] =
              .ok (found, ctx) ∧
            ctx.Reachable published ∧ matcher.snapshot.automaton.WellFormed ∧
            ∃ found' ctx',
              matcher.checkedMatchValue Finder.plain ctx [97] [7, 7] = .ok (found', ctx') := by
  obtain ⟨dangling, hdangling, hfault⟩ : ∃ dangling : Automaton Nat,
      Automaton.ofDrafts [.table none [(97, some 7)] []] (some 0) = .ok dangling ∧
        dangling.checkedTraverse 500 [97] [] = .error (.stepOutside 7) :=
    ⟨_, rfl, by decide +kernel⟩
  obtain ⟨ending, hending⟩ : ∃ ending : Automaton Nat,
      (Pattern.shell [42, 97]).automaton 1 = .ok ending := ⟨_, rfl⟩
  obtain ⟨scan, hscan⟩ : ∃ scan, LiteralScan.ofPattern [42, 98] = some scan := ⟨_, rfl⟩
  refine ⟨dangling, hdangling, hfault, ending, hending, scan, hscan, ?_⟩
  intro matcher published
  have hfind := Finder.findsFirst_plain
  have hparts : dangling.Assembled := .handMade (Automaton.tablesWellFormed_ofDrafts hdangling)
  have hunion : (((Matcher.empty 0).addAutomaton 1 dangling).addAutomaton 2 ending).Grown :=
    .automaton 2 (.automaton 1 (.empty 0) hparts) (.pattern hending)
  have hmatcher : matcher.Grown :=
    .pattern 3 (.shell [42, 98]) 2 hunion (by rw [Matcher.add, Matcher.scanFor?, hscan])
  have hpublished : matcher.snapshot.PublishedIn published := rfl
  have hcomposed := hmatcher.composed
  obtain ⟨-, -, -, hcached, -⟩ := Context.composed_walks_never_fault
    (.fresh Config.default : Context.Reachable published _) hfind
  obtain ⟨found, ctx, hwalk, hctx⟩ := hcached matcher.snapshot hpublished hcomposed [98, 97] []
  -- and once more, with what is left behind
  obtain ⟨-, -, -, -, hmatched⟩ := Context.composed_walks_never_fault hctx hfind
  obtain ⟨hwellFormed, hanswer⟩ := hmatched matcher hmatcher hpublished
  obtain ⟨found', ctx', hfound, -⟩ := hanswer [97] [7, 7]
  exact ⟨hfind, hmatcher, hpublished, hcomposed, found, ctx, hwalk, hctx, hwellFormed, found', ctx',
    hfound⟩

end Composed

end ByteMatch
