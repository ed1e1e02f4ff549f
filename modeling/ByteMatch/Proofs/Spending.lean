import ByteMatch.Proofs.CachedWalk

/-!
# What a walk takes from the budget

Walking through a cache adds sets to it and never takes one away: `SubsetDfa.Continues` says what
stays, and `Cache.Spends` that the budget is charged with just the sets that are new. None of this
depends on what the sets are: it takes an index that is right, but the contents of the cache may
have nothing to do with the automaton walked.

Caching is switched off in one place only, where a set is needed that is not kept and the budget is
used up. After the walk this can still be seen in the cache: `SubsetDfa.LacksFor` follows the value
along recorded moves up to the set that is missing.
-/

namespace ByteMatch

variable {α : Type}

namespace SubsetDfa

variable {dfa dfa' dfa'' : SubsetDfa α} {fa : Automaton α} {i source : Nat} {byte : UInt8}
  {members : List StateId}

/-! ### What stays in a cache -/

/-- The move of a set on a byte is on record. -/
def Leads (dfa : SubsetDfa α) (i : Nat) (byte : UInt8) (target : Option Nat) : Prop :=
  ∃ subset, dfa.subsets[i]? = some subset ∧ subset.moves.lookup byte = some target

/-- **Nothing is forgotten.** Sets keep their numbers, moves and the start stay on record. -/
structure Continues (dfa dfa' : SubsetDfa α) : Prop where
  kept : dfa.Extends dfa'
  leads : ∀ i byte target, dfa.Leads i byte target → dfa'.Leads i byte target
  start : ∀ i, dfa.start = some i → dfa'.start = some i

theorem Continues.refl (dfa : SubsetDfa α) : dfa.Continues dfa where
  kept := .refl dfa
  leads _ _ _ h := h
  start _ h := h

theorem Continues.trans (h : dfa.Continues dfa') (h' : dfa'.Continues dfa'') :
    dfa.Continues dfa'' where
  kept := h.kept.trans h'.kept
  leads i byte target hleads := h'.leads i byte target (h.leads i byte target hleads)
  start i hstart := h'.start i (h.start i hstart)

theorem Keeps.lt_size (h : dfa.Keeps i members) : i < dfa.size := by
  obtain ⟨subset, hsubset, -⟩ := h
  exact (Array.getElem?_eq_some_iff.1 hsubset).1

theorem Extends.size_le (h : dfa.Extends dfa') : dfa.size ≤ dfa'.size := by
  by_contra hlt
  rw [Nat.not_le] at hlt
  -- the last set could not be kept
  have hlast : dfa.Keeps dfa'.size dfa.subsets[dfa'.size].members :=
    ⟨_, Array.getElem?_eq_getElem hlt, rfl⟩
  exact Nat.lt_irrefl _ (h _ _ hlast).lt_size

theorem continues_setStart (h : dfa.start = none) (i : Nat) :
    dfa.Continues { dfa with start := some i } where
  kept _ _ hkeeps := hkeeps
  leads _ _ _ hleads := hleads
  start j hj := by rw [h] at hj; contradiction

/-- A move may be recorded where none is on record. -/
theorem continues_record {target : Option Nat}
    (hnew : ∀ subset, dfa.subsets[source]? = some subset → subset.moves.lookup byte = none) :
    dfa.Continues (dfa.record source byte target) where
  kept := extends_record dfa source byte target
  leads i byte' target' hleads := by
    obtain ⟨subset, hsubset, hlookup⟩ := hleads
    by_cases hi : i = source
    · -- the new move is put in front, and is one on another byte
      subst hi
      have hne : (byte' == byte) = false := by
        rw [beq_eq_false_iff_ne]
        rintro rfl
        rw [hnew subset hsubset] at hlookup
        contradiction
      refine ⟨{ subset with moves := (byte, target) :: subset.moves }, ?_, ?_⟩
      · rw [getElem?_record, if_pos rfl, hsubset, Option.map_some]
      · rw [List.lookup_cons, hne]
        exact hlookup
    · refine ⟨subset, ?_, hlookup⟩
      rw [getElem?_record, if_neg hi, hsubset]
  start _ h := h

theorem leads_record {subset : Subset α} (hsubset : dfa.subsets[source]? = some subset)
    (target : Option Nat) : (dfa.record source byte target).Leads source byte target := by
  refine ⟨{ subset with moves := (byte, target) :: subset.moves }, ?_, List.lookup_cons_self⟩
  rw [getElem?_record, if_pos rfl, hsubset, Option.map_some]

/-- A set that is kept anew comes behind the others, which stay as they are. -/
private theorem getElem?_keep_of_eq_some [DecidableEq α] {subset : Subset α}
    (h : dfa.subsets[i]? = some subset) (fa : Automaton α) (members : List StateId) :
    (dfa.keep fa members).subsets[i]? = some subset := by
  have hlt : i < dfa.size := (Array.getElem?_eq_some_iff.1 h).1
  rw [getElem?_keep, if_neg (Nat.ne_of_lt hlt), h]

theorem continues_keep [DecidableEq α] (dfa : SubsetDfa α) (fa : Automaton α)
    (members : List StateId) : dfa.Continues (dfa.keep fa members) where
  kept := extends_keep dfa fa members
  leads i byte target hleads := by
    obtain ⟨subset, hsubset, hlookup⟩ := hleads
    exact ⟨subset, getElem?_keep_of_eq_some hsubset fa members, hlookup⟩
  start _ h := h

/-! ### What is missing from a cache -/

/-- The successors of a kept set are needed and not kept. -/
def LacksNext (fa : Automaton α) (dfa : SubsetDfa α) (i : Nat) (byte : UInt8) : Prop :=
  ∃ members next, dfa.Keeps i members ∧ fa.successors members byte = .ok next ∧ next ≠ [] ∧
    ∀ j, ¬ dfa.Keeps j next

/-- From the set `i` recorded moves lead to a set whose successors are needed and not kept. -/
def Lacks (fa : Automaton α) (dfa : SubsetDfa α) : Nat → Bytes → Prop
  | _, [] => False
  | i, byte :: rest =>
    dfa.LacksNext fa i byte ∨ ∃ j, dfa.Leads i byte (some j) ∧ Lacks fa dfa j rest

/-- **A set is missing for the value**: the one in which walks begin, or one further on. -/
def LacksFor (fa : Automaton α) (dfa : SubsetDfa α) (value : Bytes) : Prop :=
  match dfa.start with
  | none => ∀ i, ¬ dfa.Keeps i (StateSet.sorted (fa.closure fa.start))
  | some i => dfa.Lacks fa i (symbols value)

end SubsetDfa

/-- What a move tells about the cache that it leaves. -/
def Move.Tells (fa : Automaton α) (cache : Cache α) (source : Nat) (byte : UInt8) : Move → Prop
  | .to target => cache.budget.disabled = false ∧ cache.dfa.Leads source byte (some target)
  | .dead => cache.budget.disabled = false
  | .exhausted => cache.budget.capacity ≤ cache.budget.used ∧ cache.dfa.LacksNext fa source byte

namespace Cache

variable {cache cache' cache'' : Cache α}

/-! ### The budget -/

/-- **What a walk takes**, whatever part of the walk it is: one from the budget for each set that is
new. -/
structure Spends (cache cache' : Cache α) : Prop where
  continues : cache.dfa.Continues cache'.dfa
  indexed : cache.dfa.Indexed → cache'.dfa.Indexed
  capacity_eq : cache'.budget.capacity = cache.budget.capacity
  used : cache'.budget.used + cache.dfa.size = cache.budget.used + cache'.dfa.size
  creates : cache'.budget.creates + cache.dfa.size = cache.budget.creates + cache'.dfa.size
  hits_le : cache.budget.hits ≤ cache'.budget.hits
  misses_le : cache.budget.misses ≤ cache'.budget.misses
  used_le : cache.budget.used ≤ cache.budget.capacity →
    cache'.budget.used ≤ cache'.budget.capacity

theorem Spends.refl (cache : Cache α) : Spends cache cache where
  continues := .refl _
  indexed h := h
  capacity_eq := rfl
  used := rfl
  creates := rfl
  hits_le := Nat.le_refl _
  misses_le := Nat.le_refl _
  used_le h := h

theorem Spends.trans (h : Spends cache cache') (h' : Spends cache' cache'') :
    Spends cache cache'' where
  continues := h.continues.trans h'.continues
  indexed hindexed := h'.indexed (h.indexed hindexed)
  capacity_eq := h'.capacity_eq.trans h.capacity_eq
  used := by
    have hfirst := h.used
    have hsecond := h'.used
    omega
  creates := by
    have hfirst := h.creates
    have hsecond := h'.creates
    omega
  hits_le := Nat.le_trans h.hits_le h'.hits_le
  misses_le := Nat.le_trans h.misses_le h'.misses_le
  used_le hle := h'.used_le (h.used_le hle)

/-- Counting a look-up costs nothing. -/
theorem spends_hit (cache : Cache α) : Spends cache { cache with budget := cache.budget.hit } :=
  { Spends.refl cache with hits_le := Nat.le_succ _ }

theorem spends_miss (cache : Cache α) : Spends cache { cache with budget := cache.budget.miss } :=
  { Spends.refl cache with misses_le := Nat.le_succ _ }

theorem spends_disable (cache : Cache α) :
    Spends cache { cache with budget := cache.budget.disable } :=
  { Spends.refl cache with }

theorem spends_setStart (h : cache.dfa.start = none) (i : Nat) :
    Spends cache { cache with dfa.start := some i } :=
  { Spends.refl cache with continues := SubsetDfa.continues_setStart h i }

theorem spends_record {source : Nat} {byte : UInt8} {target : Option Nat}
    (hnew : ∀ subset, cache.dfa.subsets[source]? = some subset →
      subset.moves.lookup byte = none) : Spends cache (cache.record source byte target) where
  continues := SubsetDfa.continues_record hnew
  indexed hindexed := hindexed.record source byte target
  capacity_eq := rfl
  used := by simp [Cache.record, SubsetDfa.record, SubsetDfa.size]
  creates := by simp [Cache.record, SubsetDfa.record, SubsetDfa.size]
  hits_le := Nat.le_refl _
  misses_le := Nat.le_refl _
  used_le h := h

variable [DecidableEq α] {fa : Automaton α} {source : Nat} {members : List StateId} {byte : UInt8}
  {found : Option Nat}

/-- A set that is kept is paid for. -/
theorem spends_keep {budget : Budget} (hfind : cache.dfa.find? members = none)
    (hreserve : cache.budget.reserve? = some budget) (fa : Automaton α) :
    Spends cache ⟨cache.dfa.keep fa members, budget⟩ ∧ budget.disabled = false := by
  unfold Budget.reserve? at hreserve
  split at hreserve
  · contradiction
  · next hroom =>
    obtain rfl := Option.some.inj hreserve
    rw [not_or, Bool.not_eq_true, Nat.not_le] at hroom
    have hsize : (cache.dfa.keep fa members).size = cache.dfa.size + 1 := Array.size_push _
    -- what is new in the cache is what is missing from the budget
    refine ⟨{ Spends.refl cache with
      continues := SubsetDfa.continues_keep _ _ _
      indexed := fun hindexed => hindexed.keep hfind fa
      used := ?_, creates := ?_, used_le := ?_ }, hroom.1⟩
    · show cache.budget.used + 1 + cache.dfa.size = _
      rw [hsize]
      omega
    · show cache.budget.creates + 1 + cache.dfa.size = _
      rw [hsize]
      omega
    · exact fun _ => hroom.2

/-- **Looking up a set.** It is kept afterwards, or it is missing and the budget is used up. -/
theorem locate_spends (henabled : cache.budget.disabled = false) (hindexed : cache.dfa.Indexed)
    (hlocate : cache.locate fa members = (found, cache')) :
    Spends cache cache' ∧
      (∀ i, found = some i → cache'.budget.disabled = false ∧ cache'.dfa.Keeps i members) ∧
      (found = none → cache'.budget.disabled = true ∧ cache'.dfa = cache.dfa ∧
        (∀ i, ¬ cache.dfa.Keeps i members) ∧ cache'.budget.capacity ≤ cache'.budget.used) := by
  rcases locate_cases hlocate with ⟨index, hfind, rfl, rfl⟩ | ⟨hfind, hreserve, rfl, rfl⟩ |
    ⟨budget, hfind, hreserve, rfl, rfl⟩
  · -- it was kept before
    refine ⟨.refl _, fun i hi => ?_, fun hnone => by contradiction⟩
    obtain rfl := Option.some.inj hi
    exact ⟨henabled, (hindexed _ _).1 hfind⟩
  · -- no room is left, caching being on
    have hmissing := hindexed.not_keeps hfind
    refine ⟨spends_disable _, fun i hi => by contradiction, fun _ => ⟨rfl, rfl, hmissing, ?_⟩⟩
    unfold Budget.reserve? at hreserve
    rw [henabled] at hreserve
    have hfull : cache.budget.capacity ≤ cache.budget.used := by simpa using hreserve
    exact hfull
  · -- it is kept from now on, under the next number
    obtain ⟨hspends, hstill⟩ := spends_keep hfind hreserve fa
    refine ⟨hspends, fun i hi => ?_, fun hnone => by contradiction⟩
    obtain rfl := Option.some.inj hi
    exact ⟨hstill, SubsetDfa.keeps_keep_iff.2 (.inl ⟨rfl, rfl⟩)⟩

/-- Looking a set up touches neither the start nor the sets that were kept before. -/
theorem locate_untouched (hlocate : cache.locate fa members = (found, cache')) :
    cache'.dfa.start = cache.dfa.start ∧
      ∀ (i : Nat) (subset : Subset α), cache.dfa.subsets[i]? = some subset →
        cache'.dfa.subsets[i]? = some subset := by
  rcases locate_cases hlocate with ⟨index, -, -, rfl⟩ | ⟨-, -, -, rfl⟩ | ⟨budget, -, -, -, rfl⟩
  · exact ⟨rfl, fun _ _ h => h⟩
  · exact ⟨rfl, fun _ _ h => h⟩
  · exact ⟨rfl, fun _ _ h => SubsetDfa.getElem?_keep_of_eq_some h fa members⟩

/-- The start, once found, is on record. -/
theorem locateStart_spends (henabled : cache.budget.disabled = false)
    (hindexed : cache.dfa.Indexed) (hlocate : cache.locateStart fa = (found, cache')) :
    Spends cache cache' ∧
      (∀ i, found = some i → cache'.budget.disabled = false ∧ cache'.dfa.start = some i ∧
        (cache.dfa.start = none ∨ 0 < cache.dfa.size → 0 < cache'.dfa.size)) ∧
      (found = none → cache'.budget.disabled = true ∧ cache'.dfa.start = none ∧
        (∀ i, ¬ cache'.dfa.Keeps i (StateSet.sorted (fa.closure fa.start))) ∧
        cache'.budget.capacity ≤ cache'.budget.used) := by
  rcases locateStart_cases hlocate with ⟨index, hstart, rfl, rfl⟩ | ⟨hstart, rfl, hfound⟩ |
    ⟨index, located, hstart, hfound, rfl, rfl⟩
  · -- on record already, so the cache is not a new one
    refine ⟨.refl _, fun i hi => ?_, fun hnone => by contradiction⟩
    obtain rfl := Option.some.inj hi
    refine ⟨henabled, hstart, fun hopened => hopened.resolve_left ?_⟩
    rw [hstart]
    exact Option.some_ne_none _
  · obtain ⟨hspends, -, hnone⟩ := locate_spends henabled hindexed hfound
    obtain ⟨hoff, hdfa, hmissing, hfull⟩ := hnone rfl
    refine ⟨hspends, fun i hi => by contradiction, fun _ => ⟨hoff, ?_⟩⟩
    rw [hdfa]
    exact ⟨hstart, hmissing, hfull⟩
  · obtain ⟨hspends, hsome, -⟩ := locate_spends henabled hindexed hfound
    obtain ⟨hstill, hkeeps⟩ := hsome index rfl
    have hnone : located.dfa.start = none := (locate_untouched hfound).1.trans hstart
    refine ⟨hspends.trans (spends_setStart hnone index), fun i hi => ?_,
      fun h => by contradiction⟩
    obtain rfl := Option.some.inj hi
    exact ⟨hstill, rfl, fun _ => Nat.zero_lt_of_lt hkeeps.lt_size⟩

/-! ### Walks -/

/-- A move that is worked out is on record afterwards, if there was room for its target. -/
theorem workOut_spends (henabled : cache.budget.disabled = false)
    (hindexed : cache.dfa.Indexed) {subset : Subset α}
    (hsubset : cache.dfa.subsets[source]? = some subset)
    (hnew : subset.moves.lookup byte = none) {move : Move}
    (hwork : cache.workOut fa source subset.members byte = .ok (move, cache')) :
    Spends cache cache' ∧ move.Tells fa cache' source byte := by
  have hrecord : ∀ {located : Cache α} {target : Option Nat},
      located.dfa.subsets[source]? = some subset →
        Spends located (located.record source byte target) := by
    -- the set is the one whose look-up was a miss
    intro located target hlocated
    refine spends_record fun other hother => ?_
    rw [hlocated] at hother
    rw [← Option.some.inj hother]
    exact hnew
  obtain ⟨next, hnext, hcases⟩ := workOut_cases hwork
  rcases hcases with ⟨-, rfl, rfl⟩ | ⟨hne, rfl, hlocate⟩ |
    ⟨-, target, located, hlocate, rfl, rfl⟩
  · exact ⟨hrecord hsubset, henabled⟩
  · obtain ⟨hspends, -, hnone⟩ := locate_spends henabled hindexed hlocate
    obtain ⟨-, hdfa, hmissing, hfull⟩ := hnone rfl
    -- the set is as it was, and its successors are missing
    refine ⟨hspends, hfull, ?_⟩
    rw [hdfa]
    exact ⟨subset.members, next, ⟨subset, hsubset, rfl⟩, hnext, hne, hmissing⟩
  · obtain ⟨hspends, hsome, -⟩ := locate_spends henabled hindexed hlocate
    have hlocated := (locate_untouched hlocate).2 source subset hsubset
    exact ⟨hspends.trans (hrecord hlocated), (hsome target rfl).1,
      SubsetDfa.leads_record hlocated (some target)⟩

theorem step_spends (henabled : cache.budget.disabled = false) (hindexed : cache.dfa.Indexed)
    {move : Move} (hstep : cache.step fa source byte = .ok (move, cache')) :
    Spends cache cache' ∧ move.Tells fa cache' source byte := by
  rcases step_cases hstep with ⟨-, rfl, rfl⟩ | ⟨subset, hsubset, hcases⟩
  · exact ⟨.refl _, henabled⟩
  · rcases hcases with ⟨target, hlookup, rfl, rfl⟩ | ⟨-, rfl, rfl⟩ | ⟨hlookup, hwork⟩
    · exact ⟨spends_hit _, henabled, subset, hsubset, hlookup⟩
    · exact ⟨spends_hit _, henabled⟩
    · -- the miss is counted first
      have hmiss :
          ({ cache with budget := cache.budget.miss } : Cache α).budget.disabled = false :=
        henabled
      obtain ⟨hspends, htells⟩ := workOut_spends hmiss hindexed hsubset hlookup hwork
      exact ⟨(spends_miss cache).trans hspends, htells⟩

/-- **A walk from a set.** If caching is off at its end, the budget is used up and the walk has come
to a set that is missing. -/
theorem trail_spends {threshold : Nat} {bytes : Bytes} {walked : List α}
    (henabled : cache.budget.disabled = false) (hindexed : cache.dfa.Indexed)
    (htrail : trail fa threshold cache source bytes = .ok (walked, cache')) :
    Spends cache cache' ∧ (cache'.budget.disabled = true →
      cache'.budget.capacity ≤ cache'.budget.used ∧ cache'.dfa.Lacks fa source bytes) := by
  induction bytes generalizing cache source walked with
  | nil =>
    obtain ⟨-, rfl⟩ := Prod.mk.inj (Except.ok.inj htrail)
    exact ⟨.refl _, fun hoff => absurd (henabled.symm.trans hoff) Bool.false_ne_true⟩
  | cons byte rest ih =>
    -- caching is still on where a move leads on, which is what the induction starts from
    rcases trail_cases htrail with ⟨hstep, -⟩ | ⟨hstep, -⟩ |
      ⟨target, stepped, later, hstep, hlater, -⟩
    · obtain ⟨hspends, htells⟩ := step_spends henabled hindexed hstep
      exact ⟨hspends, fun hoff => absurd (htells.symm.trans hoff) Bool.false_ne_true⟩
    · -- what is left of the value is walked without the cache
      obtain ⟨hspends, htells⟩ := step_spends henabled hindexed hstep
      exact ⟨hspends, fun _ => ⟨htells.1, .inl htells.2⟩⟩
    · obtain ⟨hspends, htells⟩ := step_spends henabled hindexed hstep
      obtain ⟨hrest, hlacks⟩ := ih htells.1 (hspends.indexed hindexed) hlater
      refine ⟨hspends.trans hrest, fun hoff => ?_⟩
      obtain ⟨hfull, hmissing⟩ := hlacks hoff
      -- the move taken here is still on record at the end
      exact ⟨hfull, .inr ⟨target, hrest.continues.leads _ _ _ htells.2, hmissing⟩⟩

/-- **A walk takes from the budget what it adds to the cache.** If caching is off at its end, the
budget is used up and a set is missing for the value; otherwise at least one set is kept. -/
theorem traverse_spends {threshold : Nat} {value : Bytes} {incoming walked : List α}
    (henabled : cache.budget.disabled = false) (hindexed : cache.dfa.Indexed)
    (hopened : cache.dfa.start = none ∨ 0 < cache.dfa.size)
    (hwalk : cache.traverse fa threshold value incoming = .ok (walked, cache')) :
    Spends cache cache' ∧
      (cache'.budget.disabled = true →
        cache'.budget.capacity ≤ cache'.budget.used ∧ cache'.dfa.LacksFor fa value) ∧
      (cache'.budget.disabled = false → 0 < cache'.dfa.size) := by
  rcases traverse_cases hwalk with ⟨met, hlocate, -, -⟩ | ⟨source, located, met, hlocate, htrail, -⟩
  · -- not even the start could be kept
    obtain ⟨hspends, -, hnone⟩ := locateStart_spends henabled hindexed hlocate
    obtain ⟨hoff, hstart, hmissing, hfull⟩ := hnone rfl
    refine ⟨hspends, fun _ => ⟨hfull, ?_⟩,
      fun hon => absurd (hon.symm.trans hoff) Bool.false_ne_true⟩
    rw [SubsetDfa.LacksFor, hstart]
    exact hmissing
  · obtain ⟨hspends, hsome, -⟩ := locateStart_spends henabled hindexed hlocate
    obtain ⟨hstill, hstart, hpositive⟩ := hsome source rfl
    obtain ⟨hrest, hlacks⟩ := trail_spends hstill (hspends.indexed hindexed) htrail
    refine ⟨hspends.trans hrest, fun hoff => ?_, fun _ => ?_⟩
    · obtain ⟨hfull, hmissing⟩ := hlacks hoff
      rw [SubsetDfa.LacksFor, hrest.continues.start source hstart]
      exact ⟨hfull, hmissing⟩
    · exact Nat.lt_of_lt_of_le (hpositive hopened) hrest.continues.kept.size_le

end Cache

/-! ### Giving back -/

/-- The work does not fail by giving back more than was taken out. -/
def NeverOverReleases {β : Type} (work : Except Fault β) : Prop :=
  ∀ held released, work ≠ .error (.overRelease held released)

namespace NeverOverReleases

variable {β γ : Type}

theorem ok (x : β) : NeverOverReleases (.ok x) := by
  intro held released h
  contradiction

theorem bind {work : Except Fault β} {f : β → Except Fault γ} (hwork : NeverOverReleases work)
    (hf : ∀ x, NeverOverReleases (f x)) : NeverOverReleases (work >>= f) := by
  cases work with
  | ok x => exact hf x
  | error e =>
    intro held released h
    exact hwork held released (congrArg Except.error (Except.error.inj h))

theorem map {work : Except Fault β} (hwork : NeverOverReleases work) (f : β → γ) :
    NeverOverReleases (f <$> work) := by
  cases work with
  | ok x => exact ok (f x)
  | error e =>
    intro held released h
    exact hwork held released (congrArg Except.error (Except.error.inj h))

/-! Walks take from the budget and have nothing to give back. -/

variable (fa : Automaton α) (threshold : Nat)

theorem requireStates (states : List StateId) : NeverOverReleases (fa.requireStates states) := by
  intro held released h
  unfold Automaton.requireStates at h
  split at h
  · contradiction
  · exact Fault.noConfusion (Except.error.inj h)

theorem trail (state : StateId) (bytes : Bytes) : NeverOverReleases (fa.trail state bytes) := by
  induction bytes generalizing state with
  | nil => exact ok _
  | cons byte rest ih =>
    unfold Automaton.trail
    split
    · exact ok _
    · exact (requireStates fa _).bind fun _ => (ih _).bind fun _ => ok _

theorem setTrail (states : List StateId) (bytes : Bytes) :
    NeverOverReleases (fa.setTrail threshold states bytes) := by
  induction bytes generalizing states with
  | nil => exact ok _
  | cons byte rest ih =>
    unfold Automaton.setTrail
    dsimp only
    split
    · exact ok _
    · exact (requireStates fa _).bind fun _ => (ih _).bind fun _ => ok _

variable [DecidableEq α]

theorem traverse (value : Bytes) (incoming : List α) :
    NeverOverReleases (fa.traverse threshold value incoming) := by
  unfold Automaton.traverse
  split
  · exact (trail fa _ _).map _
  · exact (setTrail fa _ _ _).map _

theorem step (cache : Cache α) (source : Nat) (byte : UInt8) :
    NeverOverReleases (cache.step fa source byte) := by
  unfold Cache.step
  split
  · exact ok _
  · split
    · exact fun _ _ h => Fault.noConfusion (Except.error.inj h)
    · split
      · exact ok _
      · exact ok _
      · refine ((requireStates fa _).bind fun _ => ok _).bind fun next => ?_
        split
        · exact ok _
        · split
          · exact ok _
          · exact ok _

theorem cachedTrail (cache : Cache α) (source : Nat) (bytes : Bytes) :
    NeverOverReleases (Cache.trail fa threshold cache source bytes) := by
  induction bytes generalizing cache source with
  | nil => exact ok _
  | cons byte rest ih =>
    rw [Cache.trail_cons]
    refine (step fa cache source byte).bind fun result => ?_
    split
    · exact ok _
    · exact (setTrail fa threshold _ _).bind fun _ => ok _
    · exact (ih _ _).bind fun _ => ok _

theorem cachedTraverse (cache : Cache α) (value : Bytes) (incoming : List α) :
    NeverOverReleases (cache.traverse fa threshold value incoming) := by
  unfold Cache.traverse
  split
  · exact (setTrail fa threshold _ _).bind fun _ => ok _
  · exact (cachedTrail fa threshold _ _ _).bind fun _ => ok _

end NeverOverReleases

end ByteMatch
