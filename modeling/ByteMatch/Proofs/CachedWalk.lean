import ByteMatch.Proofs.Subsets

/-!
# Walks through a cache find what paths yield

What a part of the cached walk can do is listed once (`Cache.locate_cases`, `Cache.step_cases`,
`Cache.trail_cases`, `Cache.traverse_cases`), so that only these lemmas look into the functions.

Then every part is described by what it needs of a cache that is exact for the automaton walked and by
what it does to it. What it does is always the same, `Cache.Grows`: the cache stays exact, keeps what
it kept, and takes one from the budget for each set that it keeps anew. What it answers is said in
terms of the closed sets on its way:

* `Cache.locate_spec`, `Cache.locateStart_spec`: the number found is that of the set asked for;
* `Cache.step_spec`: a step leads to the successors, if it leads anywhere;
* `Cache.trail_spec`, `Cache.traverse_spec`: so a walk collects what paths yield.

When the budget runs out the walk goes on through unexpanded states, from the members of the closed
set that it has come to; `Automaton.mem_setTrail_iff` speaks of any set of states, so nothing more
has to be known about where the walk was cut.
-/

namespace ByteMatch

variable {α : Type}

/-- What a step says about the set to which it leads. -/
def Move.LeadsTo (dfa : SubsetDfa α) : Move → List StateId → Prop
  | .to i, next => dfa.Keeps i next
  | .dead, next => next = []
  | .exhausted, _ => True

namespace Cache

variable [DecidableEq α] {fa : Automaton α} {cache cache' : Cache α} {source : Nat}
  {members : List StateId} {byte : UInt8}

/-- **What a walk does to a cache**, whatever part of the walk it is. -/
structure Grows (fa : Automaton α) (cache cache' : Cache α) : Prop where
  exact : SubsetDfa.Exact fa cache'.dfa
  kept : cache.dfa.Extends cache'.dfa
  /-- Each set kept anew is taken from the budget. -/
  used : cache'.budget.used + cache.dfa.size = cache.budget.used + cache'.dfa.size

theorem Grows.refl (h : SubsetDfa.Exact fa cache.dfa) : Grows fa cache cache :=
  ⟨h, .refl _, rfl⟩

theorem Grows.trans {cache'' : Cache α} (h : Grows fa cache cache')
    (h' : Grows fa cache' cache'') : Grows fa cache cache'' where
  exact := h'.exact
  kept := h.kept.trans h'.kept
  used := by
    have hfirst := h.used
    have hsecond := h'.used
    omega

private theorem grows_record (h : SubsetDfa.Exact fa cache.dfa) {target : Option Nat}
    {next : List StateId} (hsource : cache.dfa.Keeps source members)
    (hnext : fa.successors members byte = .ok next) (htarget : cache.dfa.StandsFor target next) :
    Grows fa cache (cache.record source byte target) where
  exact := h.record hsource hnext htarget
  kept := SubsetDfa.extends_record _ _ _ _
  used := by simp [Cache.record, SubsetDfa.record, SubsetDfa.size]

/-! ### What each part of a walk can do

Each of these lists what may have happened if a part of the walk gave the result that it gave, and
how it left the cache. Whatever else is said about a part is read off its list. -/

/-- A set that is looked up is kept already, or there is no room for it, or it is kept from now on. -/
theorem locate_cases {found : Option Nat} (h : cache.locate fa members = (found, cache')) :
    (∃ i, cache.dfa.find? members = some i ∧ found = some i ∧ cache' = cache) ∨
    (cache.dfa.find? members = none ∧ cache.budget.reserve? = none ∧ found = none ∧
      cache' = { cache with budget := cache.budget.disable }) ∨
    ∃ budget, cache.dfa.find? members = none ∧ cache.budget.reserve? = some budget ∧
      found = some cache.dfa.size ∧ cache' = ⟨cache.dfa.keep fa members, budget⟩ := by
  unfold locate at h
  split at h
  · next i hfind =>
    obtain ⟨rfl, rfl⟩ := Prod.mk.inj h
    exact .inl ⟨i, hfind, rfl, rfl⟩
  · next hfind =>
    split at h
    · next hreserve =>
      obtain ⟨rfl, rfl⟩ := Prod.mk.inj h
      exact .inr (.inl ⟨hfind, hreserve, rfl, rfl⟩)
    · next budget hreserve =>
      obtain ⟨rfl, rfl⟩ := Prod.mk.inj h
      exact .inr (.inr ⟨budget, hfind, hreserve, rfl, rfl⟩)

/-- The start is on record, or its set is looked up and its number noted if there is one. -/
theorem locateStart_cases {found : Option Nat} (h : cache.locateStart fa = (found, cache')) :
    (∃ i, cache.dfa.start = some i ∧ found = some i ∧ cache' = cache) ∨
    (cache.dfa.start = none ∧ found = none ∧
      cache.locate fa (StateSet.sorted (fa.closure fa.start)) = (none, cache')) ∨
    ∃ i located, cache.dfa.start = none ∧
      cache.locate fa (StateSet.sorted (fa.closure fa.start)) = (some i, located) ∧
      found = some i ∧ cache' = { located with dfa.start := some i } := by
  unfold locateStart at h
  split at h
  · next i hstart =>
    obtain ⟨rfl, rfl⟩ := Prod.mk.inj h
    exact .inl ⟨i, hstart, rfl, rfl⟩
  · next hstart =>
    split at h
    · next located hlocate =>
      obtain ⟨rfl, rfl⟩ := Prod.mk.inj h
      exact .inr (.inl ⟨hstart, rfl, hlocate⟩)
    · next i located hlocate =>
      obtain ⟨rfl, rfl⟩ := Prod.mk.inj h
      exact .inr (.inr ⟨i, located, hstart, hlocate, rfl, rfl⟩)

/-- Where a move is worked out there are no successors, or no room for them, or the move to them is
recorded. -/
theorem workOut_cases {move : Move}
    (h : cache.workOut fa source members byte = .ok (move, cache')) :
    ∃ next, fa.successors members byte = .ok next ∧
      (next = [] ∧ move = .dead ∧ cache' = cache.record source byte none ∨
      next ≠ [] ∧ move = .exhausted ∧ cache.locate fa next = (none, cache') ∨
      next ≠ [] ∧ ∃ target located, cache.locate fa next = (some target, located) ∧
        move = .to target ∧ cache' = located.record source byte (some target)) := by
  obtain ⟨next, hnext, h⟩ := bind_eq_ok_iff.1 h
  refine ⟨next, hnext, ?_⟩
  split at h
  · obtain ⟨rfl, rfl⟩ := Prod.mk.inj (Except.ok.inj h)
    exact .inl ⟨rfl, rfl, rfl⟩
  · next hne =>
    split at h
    · next located hlocate =>
      obtain ⟨rfl, rfl⟩ := Prod.mk.inj (Except.ok.inj h)
      exact .inr (.inl ⟨hne, rfl, hlocate⟩)
    · next target located hlocate =>
      obtain ⟨rfl, rfl⟩ := Prod.mk.inj (Except.ok.inj h)
      exact .inr (.inr ⟨hne, target, located, hlocate, rfl, rfl⟩)

/-- A step is not taken for a byte that is not read; otherwise it is on record, be it that it leads
somewhere or nowhere, or it is worked out, the miss being counted first. -/
theorem step_cases {move : Move} (h : cache.step fa source byte = .ok (move, cache')) :
    (¬ InAlphabet byte ∧ move = .dead ∧ cache' = cache) ∨
    ∃ subset, cache.dfa.subsets[source]? = some subset ∧
      ((∃ target, subset.moves.lookup byte = some (some target) ∧ move = .to target ∧
        cache' = { cache with budget := cache.budget.hit }) ∨
      (subset.moves.lookup byte = some none ∧ move = .dead ∧
        cache' = { cache with budget := cache.budget.hit }) ∨
      (subset.moves.lookup byte = none ∧
        { cache with budget := cache.budget.miss }.workOut fa source subset.members byte =
          .ok (move, cache'))) := by
  unfold step at h
  split at h
  · next hbyte =>
    obtain ⟨rfl, rfl⟩ := Prod.mk.inj (Except.ok.inj h)
    exact .inl ⟨hbyte, rfl, rfl⟩
  · split at h
    · contradiction
    · next subset hsubset =>
      refine .inr ⟨subset, hsubset, ?_⟩
      split at h
      · next target hlookup =>
        obtain ⟨rfl, rfl⟩ := Prod.mk.inj (Except.ok.inj h)
        exact .inl ⟨target, hlookup, rfl, rfl⟩
      · next hlookup =>
        obtain ⟨rfl, rfl⟩ := Prod.mk.inj (Except.ok.inj h)
        exact .inr (.inl ⟨hlookup, rfl, rfl⟩)
      · next hlookup => exact .inr (.inr ⟨hlookup, h⟩)

theorem trail_cons (threshold : Nat) (cache : Cache α) (source : Nat) (byte : UInt8)
    (rest : Bytes) :
    trail fa threshold cache source (byte :: rest) = (do
      match ← cache.step fa source byte with
      | (.dead, cache) => return ([], cache)
      | (.exhausted, cache) =>
        let found ← fa.setTrail threshold (cache.dfa.membersOf source) (byte :: rest)
        return (found, cache)
      | (.to target, cache) =>
        let here := cache.dfa.payloadsOf target
        let (found, cache) ← trail fa threshold cache target rest
        return (here ++ found, cache)) := rfl

/-- A walk takes a step, and ends there, or goes on without the cache, or goes on from where the step
leads. -/
theorem trail_cases {threshold : Nat} {rest : Bytes} {found : List α}
    (h : trail fa threshold cache source (byte :: rest) = .ok (found, cache')) :
    (cache.step fa source byte = .ok (.dead, cache') ∧ found = []) ∨
    (cache.step fa source byte = .ok (.exhausted, cache') ∧
      fa.setTrail threshold (cache'.dfa.membersOf source) (byte :: rest) = .ok found) ∨
    ∃ target stepped later, cache.step fa source byte = .ok (.to target, stepped) ∧
      trail fa threshold stepped target rest = .ok (later, cache') ∧
      found = stepped.dfa.payloadsOf target ++ later := by
  rw [trail_cons] at h
  obtain ⟨⟨move, stepped⟩, hstep, h⟩ := bind_eq_ok_iff.1 h
  cases move with
  | dead =>
    obtain ⟨rfl, rfl⟩ := Prod.mk.inj (Except.ok.inj h)
    exact .inl ⟨hstep, rfl⟩
  | exhausted =>
    obtain ⟨walked, hwalked, h⟩ := bind_eq_ok_iff.1 h
    obtain ⟨rfl, rfl⟩ := Prod.mk.inj (Except.ok.inj h)
    exact .inr (.inl ⟨hstep, hwalked⟩)
  | «to» target =>
    obtain ⟨⟨later, last⟩, hlater, h⟩ := bind_eq_ok_iff.1 h
    obtain ⟨rfl, rfl⟩ := Prod.mk.inj (Except.ok.inj h)
    exact .inr (.inr ⟨target, stepped, later, hstep, hlater, rfl⟩)

/-- A value is walked from the start, or without the cache if not even the start could be kept. -/
theorem traverse_cases {threshold : Nat} {value : Bytes} {incoming found : List α}
    (h : cache.traverse fa threshold value incoming = .ok (found, cache')) :
    (∃ met, cache.locateStart fa = (none, cache') ∧
      fa.setTrail threshold [fa.start] (symbols value) = .ok met ∧ found = collect incoming met) ∨
    ∃ source located met, cache.locateStart fa = (some source, located) ∧
      trail fa threshold located source (symbols value) = .ok (met, cache') ∧
      found = collect incoming (located.dfa.payloadsOf source ++ met) := by
  unfold traverse at h
  split at h
  · next located hlocate =>
    obtain ⟨met, hmet, h⟩ := bind_eq_ok_iff.1 h
    obtain ⟨rfl, rfl⟩ := Prod.mk.inj (Except.ok.inj h)
    exact .inl ⟨met, hlocate, hmet, rfl⟩
  · next source located hlocate =>
    obtain ⟨⟨met, last⟩, hmet, h⟩ := bind_eq_ok_iff.1 h
    obtain ⟨rfl, rfl⟩ := Prod.mk.inj (Except.ok.inj h)
    exact .inr ⟨source, located, met, hlocate, hmet, rfl⟩

/-! ### Looking sets up -/

private theorem used_of_reserve? {budget budget' : Budget} (h : budget.reserve? = some budget') :
    budget'.used = budget.used + 1 := by
  unfold Budget.reserve? at h
  split at h
  · contradiction
  · obtain rfl := Option.some.inj h
    rfl

/-- A set that is looked up is kept under the number found, if the budget allowed it. -/
theorem locate_spec (h : SubsetDfa.Exact fa cache.dfa) (hclosed : fa.ClosedSet members)
    (hne : members ≠ []) {found : Option Nat}
    (hlocate : cache.locate fa members = (found, cache')) :
    Grows fa cache cache' ∧ ∀ i, found = some i → cache'.dfa.Keeps i members := by
  rcases locate_cases hlocate with ⟨index, hfind, rfl, rfl⟩ | ⟨-, -, rfl, rfl⟩ |
    ⟨budget, hfind, hreserve, rfl, rfl⟩
  · refine ⟨.refl h, fun i hi => ?_⟩
    obtain rfl := Option.some.inj hi
    exact (h.indexed _ _).1 hfind
  · -- the budget is exhausted
    exact ⟨⟨h, .refl _, rfl⟩, fun i hi => by contradiction⟩
  · -- the set is kept anew and taken from the budget
    refine ⟨⟨h.keep hclosed hne hfind, SubsetDfa.extends_keep _ _ _, ?_⟩, fun i hi => ?_⟩
    · have hsize : (cache.dfa.keep fa members).size = cache.dfa.size + 1 := Array.size_push _
      show budget.used + cache.dfa.size = cache.budget.used + (cache.dfa.keep fa members).size
      rw [used_of_reserve? hreserve, hsize]
      omega
    · obtain rfl := Option.some.inj hi
      exact SubsetDfa.keeps_keep_iff.2 (.inl ⟨rfl, rfl⟩)

/-- The set in which a walk begins is the closure of the start. -/
theorem locateStart_spec (h : SubsetDfa.Exact fa cache.dfa) {found : Option Nat}
    (hlocate : cache.locateStart fa = (found, cache')) :
    Grows fa cache cache' ∧
      ∀ i, found = some i → cache'.dfa.Keeps i (StateSet.sorted (fa.closure fa.start)) := by
  rcases locateStart_cases hlocate with ⟨index, hstart, rfl, rfl⟩ | ⟨-, rfl, hfound⟩ |
    ⟨index, located, -, hfound, rfl, rfl⟩
  · refine ⟨.refl h, fun i hi => ?_⟩
    obtain rfl := Option.some.inj hi
    exact h.start index hstart
  · exact locate_spec h fa.closedSet_start fa.start_ne_nil hfound
  · obtain ⟨hgrows, hkeeps⟩ := locate_spec h fa.closedSet_start fa.start_ne_nil hfound
    -- the number of the start is all that changes besides
    have hindex := hkeeps index rfl
    refine ⟨⟨hgrows.exact.setStart hindex, hgrows.kept, hgrows.used⟩, fun i hi => ?_⟩
    obtain rfl := Option.some.inj hi
    exact hindex

/-! ### Steps -/

/-- A move that is worked out leads to the successors. -/
theorem workOut_spec (h : SubsetDfa.Exact fa cache.dfa) (hsource : cache.dfa.Keeps source members)
    {move : Move} (hwork : cache.workOut fa source members byte = .ok (move, cache')) :
    Grows fa cache cache' ∧
      ∃ next, fa.successors members byte = .ok next ∧ move.LeadsTo cache'.dfa next := by
  obtain ⟨next, hnext, hcases⟩ := workOut_cases hwork
  have hclosed := Automaton.closedSet_of_successors hnext
  rcases hcases with ⟨rfl, rfl, rfl⟩ | ⟨hne, rfl, hlocate⟩ |
    ⟨hne, target, located, hlocate, rfl, rfl⟩
  · -- no successors: that the byte leads nowhere is recorded
    exact ⟨grows_record h hsource hnext rfl, [], hnext, rfl⟩
  · -- there was no room for them: nothing is recorded
    obtain ⟨hgrows, -⟩ := locate_spec h hclosed hne hlocate
    exact ⟨hgrows, next, hnext, trivial⟩
  · obtain ⟨hgrows, hkeeps⟩ := locate_spec h hclosed hne hlocate
    have htarget : located.dfa.Keeps target next := hkeeps target rfl
    have hrecord := grows_record hgrows.exact (hgrows.kept _ _ hsource) hnext
      (show located.dfa.StandsFor (some target) next from ⟨hne, htarget⟩)
    exact ⟨hgrows.trans hrecord, next, hnext, SubsetDfa.keeps_record_iff.2 htarget⟩

/-- A move can be worked out if steps stay inside. -/
theorem workOut_isOk (inside : fa.StepsInside) (cache : Cache α) (source : Nat)
    (members : List StateId) (byte : UInt8) :
    ∃ result, cache.workOut fa source members byte = .ok result := by
  obtain ⟨next, hnext⟩ := Automaton.successors_isOk inside members byte
  have hrest : ∀ {f : List StateId → Except Fault (Move × Cache α)} {result},
      f next = .ok result → (fa.successors members byte >>= f) = .ok result :=
    fun h => bind_eq_ok_iff.2 ⟨next, hnext, h⟩
  cases next with
  | nil => exact ⟨_, hrest rfl⟩
  | cons s rest =>
    rcases hlocate : cache.locate fa (s :: rest) with ⟨_ | target, located⟩
    · exact ⟨(.exhausted, located), hrest (by simp only [hlocate]; rfl)⟩
    · exact ⟨(.to target, located.record source byte (some target)),
        hrest (by simp only [hlocate]; rfl)⟩

/-- **A step leads to the successors**, whether they are looked up or worked out; for a byte that is
not read there are none. -/
theorem step_spec (h : SubsetDfa.Exact fa cache.dfa) (hsource : cache.dfa.Keeps source members)
    {move : Move} (hstep : cache.step fa source byte = .ok (move, cache')) :
    Grows fa cache cache' ∧ (¬ InAlphabet byte ∧ move = .dead ∨
      ∃ next, fa.successors members byte = .ok next ∧ move.LeadsTo cache'.dfa next) := by
  rcases step_cases hstep with ⟨hbyte, rfl, rfl⟩ | ⟨subset, hsubset, hcases⟩
  · exact ⟨.refl h, .inl ⟨hbyte, rfl⟩⟩
  · have hexact := h.subset source subset hsubset
    -- the set that is kept has the members asked for
    obtain rfl : subset.members = members :=
      SubsetDfa.Keeps.unique ⟨subset, hsubset, rfl⟩ hsource
    rcases hcases with ⟨target, hlookup, rfl, rfl⟩ | ⟨hlookup, rfl, rfl⟩ | ⟨-, hwork⟩
    · -- a hit: the recorded move is the right one
      obtain ⟨next, hnext, htarget⟩ := hexact.move byte (some target) hlookup
      exact ⟨⟨h, .refl _, rfl⟩, .inr ⟨next, hnext, htarget.2⟩⟩
    · obtain ⟨next, hnext, htarget⟩ := hexact.move byte none hlookup
      exact ⟨⟨h, .refl _, rfl⟩, .inr ⟨next, hnext, htarget⟩⟩
    · -- a miss is counted before the move is worked out
      have hmiss : Grows fa cache { cache with budget := cache.budget.miss } := ⟨h, .refl _, rfl⟩
      obtain ⟨hgrows, hleads⟩ := workOut_spec hmiss.exact hsource hwork
      exact ⟨hmiss.trans hgrows, .inr hleads⟩

/-- A step can be taken from a kept set if steps stay inside. -/
theorem step_isOk (inside : fa.StepsInside) (hsource : cache.dfa.Keeps source members)
    (byte : UInt8) : ∃ result, cache.step fa source byte = .ok result := by
  obtain ⟨subset, hsubset, -⟩ := hsource
  unfold step
  split
  · exact ⟨_, rfl⟩
  · simp only [hsubset]
    split
    · exact ⟨_, rfl⟩
    · exact ⟨_, rfl⟩
    · exact workOut_isOk inside _ _ _ _

/-! ### Walks -/

/-- **A walk from a kept set** keeps the cache exact, wherever steps may lead. -/
theorem trail_spec {threshold : Nat} {bytes : Bytes} {found : List α}
    (h : SubsetDfa.Exact fa cache.dfa) (hsource : cache.dfa.Keeps source members)
    (htrail : trail fa threshold cache source bytes = .ok (found, cache')) :
    Grows fa cache cache' ∧ (fa.StepsInside →
      ∀ p, fa.Collects members bytes p ↔ p ∈ fa.payloadsAll members ∨ p ∈ found) := by
  induction bytes generalizing cache source members found with
  | nil =>
    obtain ⟨rfl, rfl⟩ := Prod.mk.inj (Except.ok.inj htrail)
    refine ⟨.refl h, fun _ p => ?_⟩
    rw [Automaton.collects_nil_iff, (h.closedSet hsource).holds_iff]
    simp
  | cons byte rest ih =>
    have hclosed := h.closedSet hsource
    rcases trail_cases htrail with ⟨hstep, rfl⟩ | ⟨hstep, hwalked⟩ |
      ⟨target, stepped, later, hstep, hlater, rfl⟩
    · -- the walk ends here, and nothing is collected behind the byte
      obtain ⟨hgrows, hmove⟩ := step_spec h hsource hstep
      refine ⟨hgrows, fun inside p => ?_⟩
      rcases hmove with ⟨hbyte, -⟩ | ⟨next, hnext, hdead⟩
      · rw [hclosed.collects_cons_iff_of_not_inAlphabet inside hbyte]
        simp
      · obtain rfl : next = [] := hdead
        rw [hclosed.collects_cons_iff hnext]
        simp [Automaton.Collects]
    · -- the walk without the cache finds the payloads of the set once more
      obtain ⟨hgrows, -⟩ := step_spec h hsource hstep
      refine ⟨hgrows, fun _ p => ?_⟩
      rw [(hgrows.kept _ _ hsource).membersOf_eq] at hwalked
      rw [Automaton.mem_setTrail_iff hwalked hclosed.inside]
      refine ⟨.inr, fun hp => hp.elim (fun hp => ?_) id⟩
      obtain ⟨s, hs, t, hpath, hp⟩ := hclosed.holds_iff.2 hp
      exact ⟨[], List.nil_prefix, s, hs, t, hpath, hp⟩
    · -- what is found behind the byte is found from the set to which it leads
      obtain ⟨hgrows, ⟨-, hdead⟩ | ⟨next, hnext, htarget⟩⟩ := step_spec h hsource hstep
      · contradiction
      · obtain ⟨hgrows', hcollects⟩ := ih hgrows.exact htarget hlater
        refine ⟨hgrows.trans hgrows', fun inside p => ?_⟩
        rw [hclosed.collects_cons_iff hnext, hcollects inside p, List.mem_append,
          hgrows.exact.mem_payloadsOf_iff htarget]

/-- A walk from a kept set gives a result if steps stay inside. -/
theorem trail_isOk (inside : fa.StepsInside) (threshold : Nat) (bytes : Bytes)
    (h : SubsetDfa.Exact fa cache.dfa) (hsource : cache.dfa.Keeps source members) :
    ∃ result, trail fa threshold cache source bytes = .ok result := by
  induction bytes generalizing cache source members with
  | nil => exact ⟨_, rfl⟩
  | cons byte rest ih =>
    obtain ⟨⟨move, stepped⟩, hstep⟩ := step_isOk inside hsource byte
    obtain ⟨hgrows, hmove⟩ := step_spec h hsource hstep
    rw [trail_cons]
    cases move with
    | dead => exact ⟨_, bind_eq_ok_iff.2 ⟨_, hstep, rfl⟩⟩
    | exhausted =>
      obtain ⟨found, hfound⟩ := Automaton.setTrail_isOk inside threshold
        (stepped.dfa.membersOf source) (byte :: rest)
      exact ⟨_, bind_eq_ok_iff.2 ⟨_, hstep, bind_eq_ok_iff.2 ⟨found, hfound, rfl⟩⟩⟩
    | «to» target =>
      rcases hmove with ⟨-, hdead⟩ | ⟨next, -, htarget⟩
      · contradiction
      · obtain ⟨later, hlater⟩ := ih hgrows.exact htarget
        exact ⟨_, bind_eq_ok_iff.2 ⟨_, hstep, bind_eq_ok_iff.2 ⟨later, hlater, rfl⟩⟩⟩

variable {threshold : Nat} {value : Bytes} {incoming found : List α}

/-- **A walk through an exact cache** keeps it exact, and answers the value if steps stay inside. -/
theorem traverse_spec (h : SubsetDfa.Exact fa cache.dfa)
    (hwalk : cache.traverse fa threshold value incoming = .ok (found, cache')) :
    Grows fa cache cache' ∧ (fa.StepsInside → fa.Answers value incoming found) := by
  rcases traverse_cases hwalk with ⟨met, hlocate, hmet, rfl⟩ |
    ⟨source, located, met, hlocate, hmet, rfl⟩
  · -- not even the start could be kept
    obtain ⟨hgrows, -⟩ := locateStart_spec h hlocate
    exact ⟨hgrows, fun _ => Automaton.answers_collect fun p =>
      Automaton.mem_setTrail_iff hmet fa.lt_size_of_mem_start⟩
  · obtain ⟨hgrows, hkeeps⟩ := locateStart_spec h hlocate
    have hsource := hkeeps source rfl
    obtain ⟨hgrows', hcollects⟩ := trail_spec hgrows.exact hsource hmet
    -- the payloads of the start are found before the walk
    refine ⟨hgrows.trans hgrows', fun inside => Automaton.answers_collect fun p => ?_⟩
    rw [List.mem_append, hgrows.exact.mem_payloadsOf_iff hsource, ← hcollects inside p,
      ← fa.closureAll_start, Automaton.collects_closureAll_iff fa.lt_size_of_mem_start]

theorem traverse_isOk (inside : fa.StepsInside) (h : SubsetDfa.Exact fa cache.dfa)
    (threshold : Nat) (value : Bytes) (incoming : List α) :
    ∃ result, cache.traverse fa threshold value incoming = .ok result := by
  unfold traverse
  split
  · obtain ⟨met, hmet⟩ := Automaton.setTrail_isOk inside threshold [fa.start] (symbols value)
    exact ⟨_, bind_eq_ok_iff.2 ⟨met, hmet, rfl⟩⟩
  · next source located hlocate =>
    obtain ⟨hgrows, hkeeps⟩ := locateStart_spec h hlocate
    obtain ⟨met, hmet⟩ :=
      trail_isOk inside threshold (symbols value) hgrows.exact (hkeeps source rfl)
    exact ⟨_, bind_eq_ok_iff.2 ⟨met, hmet, rfl⟩⟩

end Cache

end ByteMatch
