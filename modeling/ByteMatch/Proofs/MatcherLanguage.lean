import ByteMatch.Matcher
import ByteMatch.Proofs.BuiltInside
import ByteMatch.Proofs.Transparency
import ByteMatch.Proofs.UnionPaths

/-!
# What a matcher finds

A matcher comes about from an empty one by additions, each of which it scans for or unites with its
automaton. `Addition.Finds` says what each of them finds by itself, and a matcher finds, besides what
comes in, exactly what its additions find (`Matcher.Built.matchValue_spec`), whatever the context with
which it is asked has walked before.

The automaton of a matcher is walked only if something was united with it. That nothing is lost
otherwise is a part of what holds of every matcher built (`Matcher.Holds`): with nothing united its
automaton is still the empty one.
-/

namespace ByteMatch

variable {α : Type}

/-- What is added to a matcher at a time. -/
inductive Addition (α : Type) where
  | pattern (asked : Pattern) (payload : α)
  | automaton (fa : Automaton α)

/-- What an addition finds in a value by itself. -/
def Addition.Finds (value : Bytes) (x : α) : Addition α → Prop
  | .pattern asked payload =>
    match Matcher.scanFor? asked with
    | some scan => x = payload ∧ scan.isMatch value = true
    | none => ∃ fa, asked.automaton payload = .ok fa ∧
        ∃ read, read <+: symbols value ∧ fa.Yields read x
  | .automaton fa => ∃ read, read <+: symbols value ∧ fa.Yields read x

/-- The scan for an addition, if it is scanned for, and the payload that goes with it. -/
def Addition.scan? : Addition α → Option (LiteralScan × α)
  | .pattern asked payload => (Matcher.scanFor? asked).map fun scan => (scan, payload)
  | .automaton _ => none

/-- The automaton that is united for an addition, if it is not scanned for. -/
def Addition.fragment? : Addition α → Option (Automaton α)
  | .pattern asked payload =>
    match Matcher.scanFor? asked with
    | some _ => none
    | none => (asked.automaton payload).toOption
  | .automaton fa => some fa

/-- The payloads of the additions that are scanned for and match `value`, in the order added. -/
def Addition.hits (additions : List (Addition α)) (value : Bytes) : List α :=
  ((additions.filterMap Addition.scan?).filter fun entry => entry.1.isMatch value).map Prod.snd

/-- What is found by itself is hit by a scan or found in the automaton that is united. -/
theorem Addition.finds_iff {addition : Addition α} {value : Bytes} {x : α} :
    addition.Finds value x ↔
      (∃ entry, addition.scan? = some entry ∧ entry.1.isMatch value = true ∧ entry.2 = x) ∨
      ∃ fa, addition.fragment? = some fa ∧ ∃ read, read <+: symbols value ∧ fa.Yields read x := by
  cases addition with
  | automaton fa => simp [Finds, scan?, fragment?]
  | pattern asked payload =>
    rw [Finds, scan?, fragment?]
    -- a pattern is scanned for or united, so at most one of the two is there
    cases hscan : Matcher.scanFor? asked with
    | some scan => simp [and_comm, @eq_comm _ x]
    | none =>
      cases hbuilt : asked.automaton payload with
      | error e => simp [Except.toOption]
      | ok fa => simp [Except.toOption]

theorem Automaton.stepsInside_empty : (Automaton.empty : Automaton α).StepsInside :=
  Graph.stepsInside_single []

theorem Automaton.not_yields_empty {read : Bytes} {x : α} :
    ¬ (Automaton.empty : Automaton α).Yields read x := by
  intro h
  exact absurd (Graph.yields_single_iff.1 h).2 List.not_mem_nil

namespace Matcher

variable [DecidableEq α] {additions : List (Addition α)} {matcher matcher' : Matcher α}

/-- What becomes of a matcher when a pattern is added: it scans for it, or unites the automaton of the
pattern with its own. -/
theorem add_cases {id : Nat} {asked : Pattern} {payload : α}
    (h : matcher.add id asked payload = .ok matcher') :
    (∃ scan, scanFor? asked = some scan ∧ matcher' = matcher.addScan scan payload) ∨
      scanFor? asked = none ∧ ∃ fa, asked.automaton payload = .ok fa ∧
        matcher' = matcher.addAutomaton id fa := by
  unfold add at h
  split at h
  · next scan hscan => exact .inl ⟨scan, hscan, (Except.ok.inj h).symm⟩
  · next hscan =>
    obtain ⟨fa, hfa, heq⟩ := map_eq_ok_iff.1 h
    exact .inr ⟨hscan, fa, hfa, heq.symm⟩

/-- The matchers that come about by additions, in the order listed. Each addition that changes the
automaton is published under an identity; a pattern that is refused adds nothing. -/
inductive Built : List (Addition α) → Matcher α → Prop
  | empty (id : Nat) : Built [] (Matcher.empty id)
  | pattern {additions : List (Addition α)} {matcher matcher' : Matcher α} (id : Nat)
      (asked : Pattern) (payload : α) :
      Built additions matcher → matcher.add id asked payload = .ok matcher' →
      Built (additions ++ [.pattern asked payload]) matcher'
  | automaton {additions : List (Addition α)} {matcher : Matcher α} (id : Nat)
      (fa : Automaton α) :
      Built additions matcher → fa.StepsInside →
      Built (additions ++ [.automaton fa]) (matcher.addAutomaton id fa)

/-- **What holds of a matcher built by these additions.** -/
structure Holds (additions : List (Addition α)) (matcher : Matcher α) : Prop where
  inside : matcher.snapshot.automaton.StepsInside
  idle : matcher.united = 0 → matcher.snapshot.automaton = Automaton.empty
  finds_iff : ∀ value x,
    (x ∈ matcher.scanned value ∨
      ∃ read, read <+: symbols value ∧ matcher.snapshot.automaton.Yields read x) ↔
    ∃ addition ∈ additions, addition.Finds value x

omit [DecidableEq α] in
theorem holds_empty (id : Nat) : Holds [] (Matcher.empty id : Matcher α) where
  inside := Automaton.stepsInside_empty
  idle _ := rfl
  finds_iff value x := by
    have hyields : ∀ read, ¬ (Automaton.empty : Automaton α).Yields read x :=
      fun _ => Automaton.not_yields_empty
    simp [scanned, Matcher.empty, Snapshot.first, hyields]

/-- An automaton that is added is found in besides what was. -/
theorem Holds.addAutomaton (h : Holds additions matcher) {fa : Automaton α}
    (inside : fa.StepsInside) (id : Nat) {addition : Addition α}
    (haddition : ∀ value x, addition.Finds value x ↔
      ∃ read, read <+: symbols value ∧ fa.Yields read x) :
    Holds (additions ++ [addition]) (matcher.addAutomaton id fa) where
  inside := Automaton.Union.stepsInside _ _
  idle hidle := absurd hidle (Nat.succ_ne_zero _)
  finds_iff value x := by
    -- what is scanned for stays, and the union yields what either part does
    have hunion : ∀ read, (matcher.addAutomaton id fa).snapshot.automaton.Yields read x ↔
        matcher.snapshot.automaton.Yields read x ∨ fa.Yields read x :=
      fun read => Automaton.yields_union_iff h.inside inside
    have hscanned : (matcher.addAutomaton id fa).scanned value = matcher.scanned value := rfl
    simp only [hunion, hscanned, and_or_left, exists_or, List.mem_append, or_and_right,
      List.mem_singleton, exists_eq_left, haddition, ← h.finds_iff, or_assoc]

omit [DecidableEq α] in
/-- A pattern that is scanned for is found besides what was. -/
theorem Holds.addScan (h : Holds additions matcher) (scan : LiteralScan) (payload : α)
    {addition : Addition α} (haddition : ∀ value x, addition.Finds value x ↔
      x = payload ∧ scan.isMatch value = true) :
    Holds (additions ++ [addition]) (matcher.addScan scan payload) where
  inside := h.inside
  idle := h.idle
  finds_iff value x := by
    -- the automaton stays, and there is one more scan to hit
    have hscanned : x ∈ (matcher.addScan scan payload).scanned value ↔
        x ∈ matcher.scanned value ∨ x = payload ∧ scan.isMatch value = true := by
      by_cases hmatch : scan.isMatch value = true <;>
        simp [scanned, Matcher.addScan, List.filter_append, hmatch]
    have hsnapshot : (matcher.addScan scan payload).snapshot = matcher.snapshot := rfl
    simp only [hscanned, hsnapshot, List.mem_append, or_and_right, exists_or, List.mem_singleton,
      exists_eq_left, haddition, ← h.finds_iff]
    rw [or_right_comm]

theorem Built.holds (h : Built additions matcher) : Holds additions matcher := by
  induction h with
  | empty id => exact holds_empty id
  | pattern id asked payload _ hadd ih =>
    obtain ⟨scan, hscan, rfl⟩ | ⟨hscan, fa, hfa, rfl⟩ := add_cases hadd
    · exact ih.addScan scan payload fun value x => by rw [Addition.Finds, hscan]
    · -- the pattern is united, and finds what its automaton yields
      refine ih.addAutomaton (Pattern.stepsInside hfa) id fun value x => ?_
      rw [Addition.Finds, hscan]
      simp only [hfa, Except.ok.injEq, exists_eq_left']
  | automaton id fa _ inside ih => exact ih.addAutomaton inside id fun value x => Iff.rfl

/-- Steps stay inside all automata that are united. -/
theorem Built.fragment_inside (h : Built additions matcher) {addition : Addition α}
    (haddition : addition ∈ additions) {fa : Automaton α} (hfa : addition.fragment? = some fa) :
    fa.StepsInside := by
  induction h with
  | empty id => exact absurd haddition List.not_mem_nil
  | pattern id asked payload _ hadd ih =>
    rcases List.mem_append.1 haddition with hbefore | hlast
    · exact ih hbefore
    · rw [List.mem_singleton.1 hlast, Addition.fragment?] at hfa
      split at hfa
      · contradiction
      · cases hbuilt : asked.automaton payload with
        | error e => rw [hbuilt] at hfa; contradiction
        | ok built =>
          rw [hbuilt] at hfa
          rw [← Option.some.inj hfa]
          exact Pattern.stepsInside hbuilt
  | automaton id united _ inside ih =>
    rcases List.mem_append.1 haddition with hbefore | hlast
    · exact ih hbefore
    · rw [List.mem_singleton.1 hlast] at hfa
      rw [← Option.some.inj hfa]
      exact inside

/-- **A matcher finds what its additions find**, each payload once, besides what came in; and what came
in and what is scanned for stand in front. -/
theorem Built.matchValue_spec (h : Built additions matcher) {published : Publications α}
    (hmatcher : matcher.snapshot.PublishedIn published) {ctx : Context α}
    (hctx : ctx.Reachable published) (value : Bytes) (incoming : List α) :
    ∃ found ctx', matcher.matchValue ctx value incoming = .ok (found, ctx') ∧ found.Nodup ∧
      collect incoming (matcher.scanned value) <+: found ∧
      ∀ x, x ∈ found ↔ x ∈ incoming ∨ ∃ addition ∈ additions, addition.Finds value x := by
  have hholds := h.holds
  unfold matchValue
  split
  · -- nothing was united: the automaton is empty and need not be walked
    next hidle =>
    refine ⟨_, ctx, rfl, nodup_collect, List.prefix_rfl, fun x => ?_⟩
    have hyields : ∀ read, ¬ matcher.snapshot.automaton.Yields read x := by
      intro read
      rw [hholds.idle hidle]
      exact Automaton.not_yields_empty
    rw [mem_collect, ← hholds.finds_iff]
    simp only [hyields, and_false, exists_false, or_false]
  · obtain ⟨found, ctx', hwalk⟩ := hctx.sound.traverseCached_isOk hmatcher hholds.inside value
      (collect incoming (matcher.scanned value))
    -- what was scanned for comes in, before what the automaton finds
    have hanswers := (hctx.sound.traverseCached hmatcher hwalk).2 hholds.inside
    have hfirst := hanswers.incoming_first
    rw [eraseDups_of_nodup nodup_collect] at hfirst
    refine ⟨found, ctx', hwalk, hanswers.nodup, hfirst, fun x => ?_⟩
    rw [hanswers.mem_iff, mem_collect, or_assoc, hholds.finds_iff]

/-! ### What is found, and in which order -/

omit [DecidableEq α] in
private theorem mem_hits_iff {value : Bytes} {x : α} :
    x ∈ Addition.hits additions value ↔ ∃ addition ∈ additions, ∃ entry,
      addition.scan? = some entry ∧ entry.1.isMatch value = true ∧ entry.2 = x := by
  simp only [Addition.hits, List.mem_map, List.mem_filter, List.mem_filterMap]
  refine ⟨?_, ?_⟩
  · rintro ⟨entry, ⟨⟨addition, haddition, hentry⟩, hmatch⟩, hx⟩
    exact ⟨addition, haddition, entry, hentry, hmatch, hx⟩
  · rintro ⟨addition, haddition, entry, hentry, hmatch, hx⟩
    exact ⟨entry, ⟨⟨addition, haddition, hentry⟩, hmatch⟩, hx⟩

/-- What the additions find is hit by scanning or found in the automata that were united. -/
theorem Built.exists_finds_iff (h : Built additions matcher) {value : Bytes} {x : α} :
    (∃ addition ∈ additions, addition.Finds value x) ↔ x ∈ Addition.hits additions value ∨
      ∃ fa ∈ additions.filterMap Addition.fragment?, ∃ plain,
        fa.traverse Config.default.threshold value [] = .ok plain ∧ x ∈ plain := by
  -- nothing comes in, so what an automaton finds by itself is what it yields
  have htraverse : ∀ {addition : Addition α} {fa : Automaton α}, addition ∈ additions →
      addition.fragment? = some fa →
      ((∃ plain, fa.traverse Config.default.threshold value [] = .ok plain ∧ x ∈ plain) ↔
        ∃ read, read <+: symbols value ∧ fa.Yields read x) := by
    intro addition fa haddition hfa
    rw [Automaton.exists_mem_traverse_iff (h.fragment_inside haddition hfa)]
    exact or_iff_right List.not_mem_nil
  rw [mem_hits_iff]
  refine ⟨?_, ?_⟩
  · rintro ⟨addition, haddition, hfinds⟩
    rcases Addition.finds_iff.1 hfinds with hscan | ⟨fa, hfa, hyields⟩
    · exact .inl ⟨addition, haddition, hscan⟩
    · exact .inr ⟨fa, List.mem_filterMap.2 ⟨addition, haddition, hfa⟩,
        (htraverse haddition hfa).2 hyields⟩
  · rintro (⟨addition, haddition, hscan⟩ | ⟨fa, hfa, hplain⟩)
    · exact ⟨addition, haddition, Addition.finds_iff.2 (.inl hscan)⟩
    · obtain ⟨addition, haddition, hfa⟩ := List.mem_filterMap.1 hfa
      exact ⟨addition, haddition,
        Addition.finds_iff.2 (.inr ⟨fa, hfa, (htraverse haddition hfa).1 hplain⟩)⟩

end Matcher

end ByteMatch
