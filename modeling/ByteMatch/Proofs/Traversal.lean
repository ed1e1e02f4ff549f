import ByteMatch.Cache.Context
import ByteMatch.Pattern.Glob
import ByteMatch.Proofs.Outcomes
import ByteMatch.Proofs.Paths
import ByteMatch.Proofs.Repetition

/-!
# Uncached walks find what paths yield

A walk collects payloads on its way, the set walk from unexpanded states whose closures it looks up
one byte later. `fa.Collects states bytes p` says in terms of paths what a walk from `states` over
`bytes` ought to find: a payload of a state that some beginning of `bytes` leads to. Both walks find
exactly that (`Automaton.mem_setTrail_iff`, `Automaton.mem_trail_iff`), each by one induction over the
bytes whose step is `Automaton.collects_cons_iff`: what a walk collects is what it collects before
the next byte and what it collects from the states after it.

That a walk gives a result at all is a statement of its own (`Automaton.setTrail_isOk`,
`Automaton.trail_isOk`): it needs that steps stay inside, the exactness of a result does not.
-/

namespace ByteMatch

variable {α : Type}

/-! ### Collecting -/

section Collect

variable [DecidableEq α] {incoming found : List α}

theorem nodup_collect : (collect incoming found).Nodup := nodup_eraseDups _

private theorem prefix_collect : incoming.eraseDups <+: collect incoming found := by
  rw [collect, List.eraseDups_append]
  exact List.prefix_append _ _

theorem mem_collect {p : α} : p ∈ collect incoming found ↔ p ∈ incoming ∨ p ∈ found := by
  rw [collect, List.mem_eraseDups, List.mem_append]

/-- A payload that came in is not listed again. -/
theorem collect_singleton_eq_iff {payload : α} :
    collect incoming [payload] = incoming.eraseDups ↔ payload ∈ incoming := by
  refine ⟨fun h => ?_, fun hin => ?_⟩
  · have hmem : payload ∈ collect incoming [payload] := mem_collect.2 (.inr List.mem_cons_self)
    rwa [h, List.mem_eraseDups] at hmem
  · have hremoved : [payload].removeAll incoming = [] := by simp [List.removeAll, hin]
    rw [collect, List.eraseDups_append, hremoved]
    exact List.append_nil _

end Collect

namespace Automaton

variable {fa : Automaton α} {states : List StateId} {p : α}

/-! ### Looking up lists of states -/

theorem requireStates_eq_ok_iff :
    fa.requireStates states = .ok () ↔ ∀ s ∈ states, s < fa.size := by
  unfold requireStates
  split
  · next hnone => simpa using hnone
  · next s hsome =>
    have hmem := List.mem_of_find?_eq_some hsome
    have hout : ¬ s < fa.size := by simpa using List.find?_some hsome
    simp only [reduceCtorEq, false_iff]
    exact fun h => hout (h s hmem)

/-- The first state that is not there is found whether states are checked one by one or at once. -/
theorem requireStates_cons (fa : Automaton α) (state : StateId) (states : List StateId) :
    fa.requireStates (state :: states) =
      (fa.requireStates [state] >>= fun _ => fa.requireStates states) := by
  unfold requireStates
  by_cases h : state < fa.size
  · rw [List.find?_cons_of_neg (by simpa using h), List.find?_cons_of_neg (by simpa using h)]
    rfl
  · rw [List.find?_cons_of_pos (by simpa using h), List.find?_cons_of_pos (by simpa using h)]
    rfl

theorem mem_closureAll_iff (hstates : ∀ s ∈ states, s < fa.size) (m : StateId) :
    m ∈ fa.closureAll states ↔ ∃ s ∈ states, fa.Path s [] m := by
  rw [closureAll, List.mem_flatMap]
  exact exists_congr fun s => and_congr_right fun hs => fa.mem_closure_iff (hstates s hs) m

theorem mem_stepAll_iff {b : UInt8} {n : StateId} :
    n ∈ fa.stepAll states b ↔ ∃ s ∈ states, fa.step s b = some n := List.mem_filterMap

theorem stepAll_cons_of_none {s : StateId} {b : UInt8} (h : fa.step s b = none)
    (states : List StateId) : fa.stepAll (s :: states) b = fa.stepAll states b :=
  List.filterMap_cons_none h

theorem stepAll_cons_of_some {s next : StateId} {b : UInt8} (h : fa.step s b = some next)
    (states : List StateId) : fa.stepAll (s :: states) b = next :: fa.stepAll states b :=
  List.filterMap_cons_some h

theorem mem_payloadsAll_iff : p ∈ fa.payloadsAll states ↔ ∃ s ∈ states, p ∈ fa.payloads s :=
  List.mem_flatMap

/-! ### What a walk ought to find -/

/-- Some path from one of `states` reads a beginning of `bytes` and ends in a state with the payload
`p`. -/
def Collects (fa : Automaton α) (states : List StateId) (bytes : Bytes) (p : α) : Prop :=
  ∃ read, read <+: bytes ∧ ∃ s ∈ states, ∃ t, fa.Path s read t ∧ p ∈ fa.payloads t

/-- Some state with the payload `p` can be reached from one of `states` without reading. -/
def Holds (fa : Automaton α) (states : List StateId) (p : α) : Prop :=
  ∃ s ∈ states, ∃ t, fa.Path s [] t ∧ p ∈ fa.payloads t

theorem collects_nil_iff : fa.Collects states [] p ↔ fa.Holds states p := by
  simp [Collects, Holds]

/-- **One byte of a walk.** What is collected from `states` is held there or collected from the
states `next` to which the byte leads. -/
theorem collects_cons_iff {b : UInt8} {rest : Bytes} {next : List StateId}
    (hnext : ∀ n, n ∈ next ↔ ∃ s ∈ states, ∃ m, fa.Path s [] m ∧ fa.step m b = some n) :
    fa.Collects states (b :: rest) p ↔ fa.Holds states p ∨ fa.Collects next rest p := by
  refine ⟨?_, ?_⟩
  · rintro ⟨read, hread, s, hs, t, hpath, hp⟩
    cases read with
    | nil => exact .inl ⟨s, hs, t, hpath, hp⟩
    | cons c read =>
      -- the path is cut behind its first byte, where it is in one of `next`
      obtain ⟨rfl, hbegin⟩ := List.cons_prefix_cons.1 hread
      obtain ⟨m, hm, n, hstep, hrest⟩ := Path.cons_iff.1 hpath
      exact .inr ⟨read, hbegin, n, (hnext n).2 ⟨s, hs, m, hm, hstep⟩, t, hrest, hp⟩
  · rintro (⟨s, hs, t, hpath, hp⟩ | ⟨read, hread, n, hn, t, hpath, hp⟩)
    · exact ⟨[], List.nil_prefix, s, hs, t, hpath, hp⟩
    · obtain ⟨s, hs, m, hm, hstep⟩ := (hnext n).1 hn
      exact ⟨b :: read, List.cons_prefix_cons.2 ⟨rfl, hread⟩, s, hs, t,
        Path.cons_iff.2 ⟨m, hm, n, hstep, hpath⟩, hp⟩

theorem collects_start_iff {bytes : Bytes} :
    fa.Collects [fa.start] bytes p ↔ ∃ read, read <+: bytes ∧ fa.Yields read p := by
  simp [Collects, Yields]

/-! ### The walk through sets of states -/

/-- The payloads found in the closures of a set of states are those that the set holds. -/
theorem mem_payloadsAll_closureAll_iff (hstates : ∀ s ∈ states, s < fa.size) :
    p ∈ fa.payloadsAll (fa.closureAll states) ↔ fa.Holds states p := by
  simp only [mem_payloadsAll_iff, mem_closureAll_iff hstates]
  refine ⟨?_, ?_⟩
  · rintro ⟨t, ⟨s, hs, hpath⟩, hp⟩
    exact ⟨s, hs, t, hpath, hp⟩
  · rintro ⟨s, hs, t, hpath, hp⟩
    exact ⟨t, ⟨s, hs, hpath⟩, hp⟩

/-- The set to which a byte leads, as the walk works it out. -/
theorem mem_distinct_stepAll_iff (hstates : ∀ s ∈ states, s < fa.size) {threshold : Nat} {b : UInt8}
    (n : StateId) :
    n ∈ StateSet.distinct threshold (fa.stepAll (fa.closureAll states) b) ↔
      ∃ s ∈ states, ∃ m, fa.Path s [] m ∧ fa.step m b = some n := by
  simp only [StateSet.mem_distinct, mem_stepAll_iff, mem_closureAll_iff hstates]
  refine ⟨?_, ?_⟩
  · rintro ⟨m, ⟨s, hs, hpath⟩, hstep⟩
    exact ⟨s, hs, m, hpath, hstep⟩
  · rintro ⟨s, hs, m, hpath, hstep⟩
    exact ⟨m, ⟨s, hs, hpath⟩, hstep⟩

/-- **The set walk is exact** wherever it gives a result. -/
theorem mem_setTrail_iff {threshold : Nat} {bytes : Bytes} {found : List α}
    (h : fa.setTrail threshold states bytes = .ok found) (hstates : ∀ s ∈ states, s < fa.size) :
    p ∈ found ↔ fa.Collects states bytes p := by
  induction bytes generalizing states found with
  | nil =>
    rw [setTrail] at h
    obtain rfl := Except.ok.inj h
    rw [collects_nil_iff, mem_payloadsAll_closureAll_iff hstates]
  | cons b rest ih =>
    have hnext : ∀ n, n ∈ StateSet.distinct threshold (fa.stepAll (fa.closureAll states) b) ↔
        ∃ s ∈ states, ∃ m, fa.Path s [] m ∧ fa.step m b = some n := mem_distinct_stepAll_iff hstates
    -- what is held here is collected here, so the rest of the walk is left
    rw [collects_cons_iff hnext, ← mem_payloadsAll_closureAll_iff hstates]
    rw [setTrail] at h
    split at h
    · -- the set is empty and the walk ends early: nothing is collected from an empty set
      next hempty =>
      obtain rfl := Except.ok.inj h
      rw [hempty]
      simp [Collects]
    · obtain ⟨_, hrequire, h⟩ := bind_eq_ok_iff.1 h
      obtain ⟨later, hlater, h⟩ := bind_eq_ok_iff.1 h
      obtain rfl := Except.ok.inj h
      rw [List.mem_append, ih hlater (requireStates_eq_ok_iff.1 hrequire)]

/-- The set walk gives a result if steps stay inside. -/
theorem setTrail_isOk (inside : fa.StepsInside) (threshold : Nat) (states : List StateId)
    (bytes : Bytes) : ∃ found, fa.setTrail threshold states bytes = .ok found := by
  induction bytes generalizing states with
  | nil => exact ⟨_, rfl⟩
  | cons b rest ih =>
    rw [setTrail]
    split
    · exact ⟨_, rfl⟩
    · -- the states required are those to which steps led
      have hrequire : fa.requireStates
          (StateSet.distinct threshold (fa.stepAll (fa.closureAll states) b)) = .ok () := by
        refine requireStates_eq_ok_iff.2 fun n hn => ?_
        obtain ⟨m, -, hstep⟩ := mem_stepAll_iff.1 (StateSet.mem_distinct.1 hn)
        exact (inside _ _ _ hstep).2
      obtain ⟨later, hlater⟩ :=
        ih (StateSet.distinct threshold (fa.stepAll (fa.closureAll states) b))
      exact ⟨_, bind_eq_ok_iff.2 ⟨(), hrequire, bind_eq_ok_iff.2 ⟨later, hlater, rfl⟩⟩⟩

/-! ### The walk from state to state -/

/-- Without epsilon edges, nothing but the state itself is reached without reading. -/
theorem path_nil_iff_of_deterministic (hdet : fa.deterministic = true) {s t : StateId} :
    fa.Path s [] t ↔ t = s := by
  refine ⟨fun h => ?_, ?_⟩
  · generalize hread : ([] : Bytes) = read at h
    cases h with
    | refl => rfl
    | epsilon he _ =>
      -- there is no epsilon edge to take
      rw [epsilonTargets_eq_nil hdet] at he
      exact absurd he List.not_mem_nil
    | byte => contradiction
  · rintro rfl
    exact .refl t

private theorem holds_singleton_iff_of_deterministic (hdet : fa.deterministic = true)
    {s : StateId} : fa.Holds [s] p ↔ p ∈ fa.payloads s := by
  simp [Holds, path_nil_iff_of_deterministic hdet]

/-- **The state walk is exact** in an automaton without epsilon edges. -/
theorem mem_trail_iff (hdet : fa.deterministic = true) {s : StateId} {bytes : Bytes}
    {found : List α} (h : fa.trail s bytes = .ok found) :
    p ∈ found ↔ fa.Collects [s] bytes p := by
  induction bytes generalizing s found with
  | nil =>
    rw [trail] at h
    obtain rfl := Except.ok.inj h
    rw [collects_nil_iff, holds_singleton_iff_of_deterministic hdet]
  | cons b rest ih =>
    have hnext : ∀ n, n ∈ (fa.step s b).toList ↔
        ∃ s' ∈ [s], ∃ m, fa.Path s' [] m ∧ fa.step m b = some n := by
      simp [path_nil_iff_of_deterministic hdet]
    -- the state is its own closure, so its payloads are all that is held
    rw [collects_cons_iff hnext, holds_singleton_iff_of_deterministic hdet]
    rw [trail] at h
    split at h
    · -- the byte leads nowhere and the walk ends early
      next hnone =>
      obtain rfl := Except.ok.inj h
      rw [hnone]
      simp [Collects]
    · next n hstep =>
      obtain ⟨-, -, h⟩ := bind_eq_ok_iff.1 h
      obtain ⟨later, hlater, h⟩ := bind_eq_ok_iff.1 h
      obtain rfl := Except.ok.inj h
      rw [List.mem_append, ih hlater, hstep, Option.toList_some]

/-- The state walk gives a result if steps stay inside. -/
theorem trail_isOk (inside : fa.StepsInside) (s : StateId) (bytes : Bytes) :
    ∃ found, fa.trail s bytes = .ok found := by
  induction bytes generalizing s with
  | nil => exact ⟨_, rfl⟩
  | cons b rest ih =>
    rw [trail]
    split
    · exact ⟨_, rfl⟩
    · next n hstep =>
      have hrequire : fa.requireStates [n] = .ok () :=
        requireStates_eq_ok_iff.2 (by simpa using (inside _ _ _ hstep).2)
      obtain ⟨later, hlater⟩ := ih n
      exact ⟨_, bind_eq_ok_iff.2 ⟨(), hrequire, bind_eq_ok_iff.2 ⟨later, hlater, rfl⟩⟩⟩

/-! ### The two walks as answers -/

theorem lt_size_of_mem_start (fa : Automaton α) : ∀ s ∈ [fa.start], s < fa.size := by
  intro s hs
  rw [List.mem_singleton.1 hs]
  exact fa.start_lt

variable [DecidableEq α]

/-- **What a value ought to be answered with**: those payloads that came in, each once, then others;
and besides them exactly those that some beginning of what is read for the value yields. -/
structure Answers (fa : Automaton α) (value : Bytes) (incoming found : List α) : Prop where
  nodup : found.Nodup
  incoming_first : incoming.eraseDups <+: found
  mem_iff : ∀ p, p ∈ found ↔
    p ∈ incoming ∨ ∃ read, read <+: symbols value ∧ fa.Yields read p

variable {threshold : Nat} {value : Bytes} {incoming found : List α}

/-- A walk from the start that is exact answers the value. -/
theorem answers_collect
    (h : ∀ p, p ∈ found ↔ fa.Collects [fa.start] (symbols value) p) :
    fa.Answers value incoming (collect incoming found) where
  nodup := nodup_collect
  incoming_first := prefix_collect
  mem_iff p := by rw [mem_collect, h, collects_start_iff]

private theorem answers_of_traverseSets (h : fa.traverseSets threshold value incoming = .ok found) :
    fa.Answers value incoming found := by
  obtain ⟨met, hmet, rfl⟩ := map_eq_ok_iff.1 h
  exact answers_collect fun p => mem_setTrail_iff hmet fa.lt_size_of_mem_start

theorem answers_of_traverse (h : fa.traverse threshold value incoming = .ok found) :
    fa.Answers value incoming found := by
  unfold traverse at h
  split at h
  · next hdet =>
    obtain ⟨met, hmet, rfl⟩ := map_eq_ok_iff.1 h
    exact answers_collect fun p => mem_trail_iff hdet hmet
  · exact answers_of_traverseSets h

theorem traverseSets_isOk (inside : fa.StepsInside) (threshold : Nat) (value : Bytes)
    (incoming : List α) : ∃ found, fa.traverseSets threshold value incoming = .ok found := by
  obtain ⟨met, hmet⟩ := setTrail_isOk inside threshold [fa.start] (symbols value)
  exact ⟨_, map_eq_ok_iff.2 ⟨met, hmet, rfl⟩⟩

theorem traverse_isOk (inside : fa.StepsInside) (threshold : Nat) (value : Bytes)
    (incoming : List α) : ∃ found, fa.traverse threshold value incoming = .ok found := by
  unfold traverse
  split
  · obtain ⟨met, hmet⟩ := trail_isOk inside fa.start (symbols value)
    exact ⟨_, map_eq_ok_iff.2 ⟨met, hmet, rfl⟩⟩
  · exact traverseSets_isOk inside threshold value incoming

/-- A payload is found if it came in or is yielded. -/
theorem exists_mem_traverse_iff (inside : fa.StepsInside) :
    (∃ found, fa.traverse threshold value incoming = .ok found ∧ p ∈ found) ↔
      p ∈ incoming ∨ ∃ read, read <+: symbols value ∧ fa.Yields read p := by
  refine ⟨?_, fun hp => ?_⟩
  · rintro ⟨found, hfound, hp⟩
    exact ((answers_of_traverse hfound).mem_iff p).1 hp
  · obtain ⟨found, hfound⟩ := traverse_isOk inside threshold value incoming
    exact ⟨found, hfound, ((answers_of_traverse hfound).mem_iff p).2 hp⟩

/-- Where nothing is found but what came in, the duplicates of it are dropped. -/
theorem Answers.eq_eraseDups (h : fa.Answers value incoming found)
    (hin : ∀ x ∈ found, x ∈ incoming) : found = incoming.eraseDups := by
  obtain ⟨rest, rfl⟩ := h.incoming_first
  obtain ⟨-, -, hnew⟩ := List.nodup_append.1 h.nodup
  have hrest : rest = [] := by
    refine List.eq_nil_iff_forall_not_mem.2 fun x hx => ?_
    have hold : x ∈ incoming.eraseDups := List.mem_eraseDups.2 (hin x (List.mem_append_right _ hx))
    exact hnew x hold x hx rfl
  rw [hrest, List.append_nil]

/-- What is found where only one payload can be: what came in, and that payload if the value is
accepted. -/
theorem Answers.eq_collect (h : fa.Answers value incoming found) {payload : α} {accepts : Prop}
    (hyields : ∀ x, (∃ read, read <+: symbols value ∧ fa.Yields read x) ↔ x = payload ∧ accepts) :
    (accepts → found = collect incoming [payload]) ∧
      (¬ accepts → found = incoming.eraseDups) := by
  have hmem : ∀ x, x ∈ found ↔ x ∈ incoming ∨ x = payload ∧ accepts := by
    intro x
    rw [h.mem_iff, hyields]
  refine ⟨fun haccepts => ?_, fun hrefuses => h.eq_eraseDups fun x hx => ?_⟩
  · by_cases hin : payload ∈ incoming
    · rw [collect_singleton_eq_iff.2 hin]
      refine h.eq_eraseDups fun x hx => ?_
      rcases (hmem x).1 hx with hx | ⟨rfl, -⟩
      · exact hx
      · exact hin
    · obtain ⟨rest, rfl⟩ := h.incoming_first
      obtain ⟨-, hnodup, hnew⟩ := List.nodup_append.1 h.nodup
      have hkept : [payload].removeAll incoming = [payload] := by simp [List.removeAll, hin]
      rw [collect, List.eraseDups_append, hkept]
      apply congrArg (incoming.eraseDups ++ ·)
      -- copies of the payload, of which there is one since it is found and not found twice
      have hcopies : rest = List.replicate rest.length payload := by
        refine List.eq_replicate_of_mem fun x hx => ?_
        have hout : x ∉ incoming := fun hold => hnew x (List.mem_eraseDups.2 hold) x hx rfl
        exact (((hmem x).1 (List.mem_append_right _ hx)).resolve_left hout).1
      have hatmost : rest.length ≤ 1 := by
        apply List.nodup_replicate.1
        rw [← hcopies]
        exact hnodup
      have hatleast : 0 < rest.length := by
        have hfound : payload ∈ incoming.eraseDups ++ rest := (hmem payload).2 (.inr ⟨rfl, haccepts⟩)
        refine List.length_pos_of_mem ((List.mem_append.1 hfound).resolve_left ?_)
        exact fun hold => hin (List.mem_eraseDups.1 hold)
      have hone : rest.length = 1 := Nat.le_antisymm hatmost hatleast
      rw [hcopies, hone, List.replicate_one]
      rfl
  · exact ((hmem x).1 hx).resolve_right fun hx => hrefuses hx.2

/-- What a walk finds where only one payload can be. -/
theorem traverse_eq_collect_of_yields_iff (inside : fa.StepsInside) {payload : α} {accepts : Prop}
    (h : ∀ x, (∃ read, read <+: symbols value ∧ fa.Yields read x) ↔ x = payload ∧ accepts)
    (threshold : Nat) (incoming : List α) :
    (accepts → fa.traverse threshold value incoming = .ok (collect incoming [payload])) ∧
      (¬ accepts → fa.traverse threshold value incoming = .ok incoming.eraseDups) := by
  obtain ⟨found, hfound⟩ := traverse_isOk inside threshold value incoming
  obtain ⟨haccepts, hrefuses⟩ := (answers_of_traverse hfound).eq_collect h
  rw [hfound]
  exact ⟨fun h => by rw [haccepts h], fun h => by rw [hrefuses h]⟩

/-- Where nothing came in, a value that is accepted is given the payload, any other one nothing. -/
theorem traverse_eq_of_yields_iff (inside : fa.StepsInside) {payload : α} {accepts : Prop}
    (h : ∀ x, (∃ read, read <+: symbols value ∧ fa.Yields read x) ↔ x = payload ∧ accepts)
    (threshold : Nat) :
    (accepts → fa.traverse threshold value [] = .ok [payload]) ∧
      (¬ accepts → fa.traverse threshold value [] = .ok []) :=
  traverse_eq_collect_of_yields_iff inside h threshold []

/-- **Uncached walks are sound and complete.** Walked from state to state or through sets, with or
without a context and with any threshold, a value is answered with what paths yield for it; so all
of these walks find the same payloads. -/
theorem uncached_walks_answer (inside : fa.StepsInside) (value : Bytes) (incoming : List α) :
    (∀ threshold, ∃ found, fa.traverse threshold value incoming = .ok found ∧
      fa.Answers value incoming found) ∧
    (∀ threshold, ∃ found, fa.traverseSets threshold value incoming = .ok found ∧
      fa.Answers value incoming found) ∧
    (∀ ctx : Context α, ∃ found, ctx.traverse fa value incoming = .ok found ∧
      fa.Answers value incoming found) ∧
    ∀ threshold threshold' found found',
      fa.traverse threshold value incoming = .ok found ∨
        fa.traverseSets threshold value incoming = .ok found →
      fa.traverse threshold' value incoming = .ok found' ∨
        fa.traverseSets threshold' value incoming = .ok found' →
      ∀ p, p ∈ found ↔ p ∈ found' := by
  have hwalk : ∀ threshold, ∃ found, fa.traverse threshold value incoming = .ok found ∧
      fa.Answers value incoming found := by
    intro threshold
    obtain ⟨found, h⟩ := traverse_isOk inside threshold value incoming
    exact ⟨found, h, answers_of_traverse h⟩
  -- a context walks with the threshold of its configuration
  refine ⟨hwalk, ?_, fun ctx => hwalk ctx.config.threshold, ?_⟩
  · intro threshold
    obtain ⟨found, h⟩ := traverseSets_isOk inside threshold value incoming
    exact ⟨found, h, answers_of_traverseSets h⟩
  · -- two results answer the same question
    intro threshold threshold' found found' h h' p
    have hfound : fa.Answers value incoming found :=
      h.elim answers_of_traverse answers_of_traverseSets
    have hfound' : fa.Answers value incoming found' :=
      h'.elim answers_of_traverse answers_of_traverseSets
    rw [hfound.mem_iff, hfound'.mem_iff]

/-- The walks of `xa` through the automaton of `*a`, with a payload coming in. -/
theorem uncached_walks_answer_star :
    (Automaton.StepsInside (Glob.automaton [.star, .byte 97] 1)) ∧
    Automaton.traverse (Glob.automaton [.star, .byte 97] 1) 500 [120, 97] [7, 7] = .ok [7, 1] ∧
    Automaton.Answers (Glob.automaton [.star, .byte 97] 1) [120, 97] [7, 7] [7, 1] := by
  have inside : Automaton.StepsInside (Glob.automaton [.star, .byte 97] 1) :=
    stepsInside_of_runs (by decide +kernel)
  have hrun : Automaton.traverse (Glob.automaton [.star, .byte 97] 1) 500 [120, 97] [7, 7] =
      .ok [7, 1] := by decide +kernel
  obtain ⟨found, hfound, hanswer⟩ := (uncached_walks_answer inside [120, 97] [7, 7]).1 500
  obtain rfl : [7, 1] = found := Except.ok.inj (hrun.symm.trans hfound)
  exact ⟨inside, hrun, hanswer⟩

end Automaton

end ByteMatch
