import ByteMatch.Proofs.Serving
import ByteMatch.Proofs.Spending
import ByteMatch.Proofs.WalkedSets

/-!
# A value that was walked before is only looked up

When a value has been walked through a cache and caching is still on, everything that the walk needed
is on record: the set in which it began, and for each byte that was looked up where it led, be it
nowhere (`SubsetDfa.ResolvedFor`). From there on nothing has to be worked out for this value:

* `Cache.traverse_resolves`: a walk leaves on record all that it asked for;
* `SubsetDfa.Continues.resolvedFor`: what is on record stays there as long as the cache is not dropped;
* `Context.warm_of_serveAll`: a cache is dropped only where everything is cleared or another edition of
  the automaton is walked, so calls that do neither leave the context warm;
* `Cache.traverse_replays`: a walk over what is on record hits once for each byte that it looks up, and
  leaves the cache as it was.

How often it hits can be told from the automaton and the value alone (`lookedUp`): each set that the
value comes through is left by looking up one byte, except that a byte that is not read is not looked
up. That the list is the same is no matter of what is on record: with caching on, any walk lists the
sets of the value (`Context.Sound.lists_sets`).
-/

namespace ByteMatch

variable {α : Type}

/-- **The bytes looked up** in a walk that comes through the sets listed: up to the byte after which
there is no set, or all of them, but none from the first one on that is not read. -/
def lookedUp (bytes : Bytes) (sets : List (List StateId)) : Bytes :=
  (bytes.take sets.length).takeWhile fun byte => InAlphabet byte

theorem lookedUp_of_not_inAlphabet {byte : UInt8} (h : ¬ InAlphabet byte) (rest : Bytes)
    (sets : List (List StateId)) : lookedUp (byte :: rest) sets = [] := by
  unfold lookedUp
  cases sets with
  | nil => rfl
  | cons set sets =>
    rw [List.length_cons, List.take_succ_cons]
    exact List.takeWhile_cons_of_neg (by simpa using h)

theorem lookedUp_cons {byte : UInt8} (h : InAlphabet byte) (rest : Bytes) (set : List StateId)
    (sets : List (List StateId)) :
    lookedUp (byte :: rest) (set :: sets) = byte :: lookedUp rest sets := by
  unfold lookedUp
  rw [List.length_cons, List.take_succ_cons]
  exact List.takeWhile_cons_of_pos (by simpa using h)

/-- Counts a number of look-ups that were answered from the cache. -/
def Budget.hitTimes (budget : Budget) (count : Nat) : Budget :=
  { budget with hits := budget.hits + count }

private theorem Budget.hitTimes_hit (budget : Budget) (count : Nat) :
    budget.hit.hitTimes count = budget.hitTimes (count + 1) := by
  unfold hit hitTimes
  rw [Nat.add_assoc, Nat.add_comm 1]

/-! ### What a walk leaves on record -/

namespace SubsetDfa

variable {dfa dfa' : SubsetDfa α} {i : Nat} {bytes value : Bytes}

/-- From the set `i` on, every move that a walk of the bytes asks for is on record. -/
def Resolved (dfa : SubsetDfa α) : Nat → Bytes → Prop
  | _, [] => True
  | i, byte :: rest =>
    ¬ InAlphabet byte ∨ dfa.Leads i byte none ∨
      ∃ j, dfa.Leads i byte (some j) ∧ Resolved dfa j rest

/-- **All that a walk of the value asks for is on record**: where it begins, and its moves. -/
def ResolvedFor (dfa : SubsetDfa α) (value : Bytes) : Prop :=
  ∃ i, dfa.start = some i ∧ dfa.Resolved i (symbols value)

theorem Continues.resolved (h : dfa.Continues dfa') (hresolved : dfa.Resolved i bytes) :
    dfa'.Resolved i bytes := by
  induction bytes generalizing i with
  | nil => trivial
  | cons byte rest ih =>
    rcases hresolved with hbyte | hnone | ⟨j, hsome, hrest⟩
    · exact .inl hbyte
    · exact .inr (.inl (h.leads _ _ _ hnone))
    · exact .inr (.inr ⟨j, h.leads _ _ _ hsome, ih hrest⟩)

theorem Continues.resolvedFor (h : dfa.Continues dfa') (hresolved : dfa.ResolvedFor value) :
    dfa'.ResolvedFor value := by
  obtain ⟨i, hstart, hmoves⟩ := hresolved
  exact ⟨i, h.start i hstart, h.resolved hmoves⟩

/-- In an exact cache a move on record stands for the closure of where the byte leads. -/
theorem Exact.standsFor_of_leads [DecidableEq α] {fa : Automaton α} (h : Exact fa dfa)
    {members next : List StateId} {byte : UInt8} {target : Option Nat} (hsource : dfa.Keeps i members)
    (hleads : dfa.Leads i byte target) (hnext : fa.AscendingClosure (fa.stepAll members byte) next) :
    dfa.StandsFor target next := by
  obtain ⟨subset, hsubset, hlookup⟩ := hleads
  obtain ⟨other, hother, htarget⟩ := (h.subset i subset hsubset).move byte target hlookup
  obtain rfl : subset.members = members := Keeps.unique ⟨subset, hsubset, rfl⟩ hsource
  obtain rfl : other = next := (Automaton.ascendingClosure_of_successors hother).unique hnext
  exact htarget

end SubsetDfa

/-- Bytes lead through no set from where there is none. -/
theorem Automaton.ComesThrough.eq_nil {fa : Automaton α} {bytes : Bytes}
    {sets : List (List StateId)} (h : fa.ComesThrough [] bytes sets) : sets = [] := by
  cases h with
  | nowhere => rfl
  | last hne => exact absurd rfl hne
  | onward hne => exact absurd rfl hne

namespace Cache

variable [DecidableEq α] {fa : Automaton α} {cache cache' : Cache α} {source : Nat}
  {members : List StateId} {byte : UInt8} {threshold : Nat}

/-- That a byte leads nowhere is on record afterwards, unless it is not read. -/
private theorem leads_none_of_step_dead (hstep : cache.step fa source byte = .ok (.dead, cache')) :
    ¬ InAlphabet byte ∨ cache'.dfa.Leads source byte none := by
  rcases step_cases hstep with ⟨hbyte, -, -⟩ |
    ⟨subset, hsubset, ⟨target, -, hmove, -⟩ | ⟨hlookup, -, rfl⟩ | ⟨-, hwork⟩⟩
  · exact .inl hbyte
  · contradiction
  · -- a hit: it was on record before
    exact .inr ⟨subset, hsubset, hlookup⟩
  · -- a miss: it is recorded where there are no successors
    obtain ⟨next, -, ⟨-, -, rfl⟩ | ⟨-, hmove, -⟩ | ⟨-, target, located, -, hmove, -⟩⟩ :=
      workOut_cases hwork
    · exact .inr (SubsetDfa.leads_record hsubset none)
    · contradiction
    · contradiction

/-- **A walk from a set leaves its moves on record**, if caching is still on at its end. -/
theorem trail_resolves {bytes : Bytes} {found : List α} (henabled : cache.budget.disabled = false)
    (hindexed : cache.dfa.Indexed)
    (htrail : trail fa threshold cache source bytes = .ok (found, cache'))
    (hon : cache'.budget.disabled = false) : cache'.dfa.Resolved source bytes := by
  induction bytes generalizing cache source found with
  | nil => trivial
  | cons byte rest ih =>
    -- the induction starts from the cache that the step has left, so caching must be on in it
    rcases trail_cases htrail with ⟨hstep, -⟩ | ⟨hstep, -⟩ |
      ⟨target, stepped, later, hstep, hlater, -⟩
    · rcases leads_none_of_step_dead hstep with hbyte | hnone
      · exact .inl hbyte
      · exact .inr (.inl hnone)
    · -- nothing would be recorded, but then caching would be off
      have hoff := disabled_of_step_exhausted hstep
      exact absurd (hon.symm.trans hoff) Bool.false_ne_true
    · -- the rest of the walk leaves the move taken here where it is
      obtain ⟨hspends, hstill, hleads⟩ := step_spends henabled hindexed hstep
      have hstepped := hspends.indexed hindexed
      obtain ⟨hrest, -⟩ := trail_spends hstill hstepped hlater
      refine .inr (.inr ⟨target, hrest.continues.leads _ _ _ hleads, ?_⟩)
      exact ih hstill hstepped hlater

/-- **A walk leaves on record all that it asked for**, if caching is still on at its end. -/
theorem traverse_resolves {value : Bytes} {incoming found : List α}
    (henabled : cache.budget.disabled = false) (hindexed : cache.dfa.Indexed)
    (hwalk : cache.traverse fa threshold value incoming = .ok (found, cache'))
    (hon : cache'.budget.disabled = false) : cache'.dfa.ResolvedFor value := by
  rcases traverse_cases hwalk with ⟨met, hlocate, -, -⟩ |
    ⟨source, located, met, hlocate, htrail, -⟩
  · have hoff := disabled_of_locateStart_eq_none hlocate
    exact absurd (hon.symm.trans hoff) Bool.false_ne_true
  · obtain ⟨hspends, hsome, -⟩ := locateStart_spends henabled hindexed hlocate
    obtain ⟨hstill, hstart, -⟩ := hsome source rfl
    have hlocated := hspends.indexed hindexed
    obtain ⟨hrest, -⟩ := trail_spends hstill hlocated htrail
    exact ⟨source, hrest.continues.start source hstart,
      trail_resolves hstill hlocated htrail hon⟩

/-! ### Walking what is on record -/

/-- A move on record is taken, and counted as a hit. -/
theorem step_of_leads {target : Option Nat} (hbyte : InAlphabet byte)
    (h : cache.dfa.Leads source byte target) :
    cache.step fa source byte =
      .ok (target.elim .dead .to, { cache with budget := cache.budget.hit }) := by
  obtain ⟨subset, hsubset, hlookup⟩ := h
  unfold step
  rw [if_neg (not_not.2 hbyte), hsubset]
  dsimp only
  rw [hlookup]
  cases target with
  | none => rfl
  | some j => rfl

/-- **A walk over moves on record only hits**, once for each byte looked up. -/
theorem trail_replays (threshold : Nat) {bytes : Bytes} {sets : List (List StateId)}
    (h : SubsetDfa.Exact fa cache.dfa) (hsource : cache.dfa.Keeps source members)
    (hresolved : cache.dfa.Resolved source bytes) (hsets : fa.ComesThrough members bytes sets) :
    ∃ found, trail fa threshold cache source bytes =
      .ok (found, { cache with budget := cache.budget.hitTimes (lookedUp bytes sets).length }) := by
  -- only the count of hits differs from byte to byte, so the cache stays exact on the way
  induction bytes generalizing cache source members sets with
  | nil =>
    have hnone : lookedUp [] sets = [] := by
      rw [lookedUp, List.take_nil]
      rfl
    rw [hnone]
    exact ⟨[], rfl⟩
  | cons byte rest ih =>
    by_cases hbyte : InAlphabet byte
    · cases hsets with
      | nowhere => exact absurd rfl (h.ne_nil hsource)
      | @onward _ next _ _ later hne hnext hrest =>
        rw [lookedUp_cons hbyte, List.length_cons]
        rcases hresolved with hnot | hnone | ⟨j, hsome, hlater⟩
        · exact absurd hbyte hnot
        · -- the next set is empty, and the walk ends there
          obtain rfl : next = [] := h.standsFor_of_leads hsource hnone hnext
          obtain rfl := hrest.eq_nil
          exact ⟨[], bind_eq_ok_iff.2 ⟨_, step_of_leads hbyte hnone, rfl⟩⟩
        · -- the walk goes on from the set kept under `j`, with one hit more
          obtain ⟨-, hkept⟩ := h.standsFor_of_leads hsource hsome hnext
          obtain ⟨found, hfound⟩ : ∃ found,
              trail fa threshold { cache with budget := cache.budget.hit } j rest =
                .ok (found, { cache with
                  budget := cache.budget.hit.hitTimes (lookedUp rest later).length }) :=
            ih h hkept hlater hrest
          rw [Budget.hitTimes_hit] at hfound
          exact ⟨_, bind_eq_ok_iff.2 ⟨_, step_of_leads hbyte hsome,
            bind_eq_ok_iff.2 ⟨_, hfound, rfl⟩⟩⟩
    · -- a byte that is not read ends the walk without being looked up
      rw [lookedUp_of_not_inAlphabet hbyte]
      exact ⟨[], bind_eq_ok_iff.2 ⟨(.dead, cache), if_pos hbyte, rfl⟩⟩

/-- **A walk of a value for which all is on record only hits.** -/
theorem traverse_replays (threshold : Nat) {value : Bytes} {sets : List (List StateId)}
    (h : SubsetDfa.Exact fa cache.dfa) (hresolved : cache.dfa.ResolvedFor value)
    (hsets : fa.SetsOf value sets) (incoming : List α) :
    ∃ found, cache.traverse fa threshold value incoming =
      .ok (found, { cache with
        budget := cache.budget.hitTimes (lookedUp (symbols value) sets).length }) := by
  obtain ⟨source, hstart, hmoves⟩ := hresolved
  obtain ⟨first, hfirst, hsets⟩ := hsets
  obtain rfl := hfirst.unique fa.ascendingClosure_start
  obtain ⟨met, hmet⟩ := trail_replays threshold h (h.start source hstart) hmoves hsets
  have hlocate : cache.locateStart fa = (some source, cache) := by
    unfold locateStart
    rw [hstart]
  unfold traverse
  rw [hlocate]
  exact ⟨_, bind_eq_ok_iff.2 ⟨_, hmet, rfl⟩⟩

end Cache

/-! ### What the cache of a lineage goes through -/

namespace Context

variable {published : Publications α} {ctx ctx' : Context α} {snapshot other : Snapshot α}
  {value value' : Bytes} {incoming found : List α}

/-- **The context holds a cache for this edition in which all is on record for the value.** -/
def Warm (snapshot : Snapshot α) (value : Bytes) (ctx : Context α) : Prop :=
  ∃ dfa, ctx.caches.lookup snapshot.lineage = some ⟨snapshot.id, dfa⟩ ∧ dfa.ResolvedFor value

private theorem openCache_of_lookup {dfa : SubsetDfa α}
    (h : ctx.caches.lookup snapshot.lineage = some ⟨snapshot.id, dfa⟩) :
    ctx.openCache snapshot = .ok ⟨dfa, ctx.budget⟩ := by
  unfold openCache
  rw [h]
  exact if_pos rfl

/-- Opening a cache neither switches caching off nor on. -/
private theorem disabled_of_openCache {cache : Cache α} (h : ctx.openCache snapshot = .ok cache) :
    cache.budget.disabled = ctx.budget.disabled := by
  unfold openCache at h
  split at h
  · rw [← Except.ok.inj h]
  · split at h
    · rw [← Except.ok.inj h]
    · obtain ⟨released, hreleased, h⟩ := bind_eq_ok_iff.1 h
      rw [← Except.ok.inj h]
      unfold Budget.release at hreleased
      split at hreleased
      · rw [← Except.ok.inj hreleased]
      · contradiction

variable [DecidableEq α]

/-- A walk that keeps caching on warms the context up for the value. -/
theorem Sound.warm_of_traverseCached (h : Sound published ctx)
    (hsnapshot : snapshot.PublishedIn published)
    (hepsilon : snapshot.automaton.deterministic = false)
    (hwalk : ctx.traverseCached snapshot value incoming = .ok (found, ctx'))
    (hon : ctx'.budget.disabled = false) : ctx'.Warm snapshot value := by
  rcases traverseCached_cases hwalk with ⟨hplain, -, rfl⟩ | ⟨hcached, cache, last, hcache, hmet, rfl⟩
  · -- caching was off before, and stays off
    rw [hepsilon, Bool.false_or] at hplain
    exact absurd (hon.symm.trans hplain) Bool.false_ne_true
  · obtain ⟨opened, hopened, hexact, -⟩ := h.openCache hsnapshot
    obtain rfl : opened = cache := Except.ok.inj (hopened.symm.trans hcache)
    have henabled : opened.budget.disabled = false :=
      (disabled_of_openCache hcache).trans (enabled_of_cached hcached)
    refine ⟨last.dfa, lookup_store_self _ _ _, ?_⟩
    exact Cache.traverse_resolves henabled hexact.indexed hmet hon

/-- **A walk of anything but another edition** leaves the context warm for the value. -/
theorem Warm.traverseCached (h : ctx.Warm snapshot value) (hsound : Sound published ctx)
    (hother : other.PublishedIn published)
    (hspares : other.lineage = snapshot.lineage → other.id = snapshot.id)
    (hwalk : ctx.traverseCached other value' incoming = .ok (found, ctx')) :
    ctx'.Warm snapshot value := by
  obtain ⟨dfa, hlookup, hresolved⟩ := h
  rcases traverseCached_cases hwalk with ⟨-, -, rfl⟩ | ⟨hcached, cache, last, hcache, hmet, rfl⟩
  · exact ⟨dfa, hlookup, hresolved⟩
  · by_cases hlineage : other.lineage = snapshot.lineage
    · -- the same edition: its cache is walked on from where it was
      have hid := hspares hlineage
      rw [← hlineage, ← hid] at hlookup
      obtain ⟨opened, hopened, hexact, -⟩ := hsound.openCache hother
      obtain rfl : opened = cache := Except.ok.inj (hopened.symm.trans hcache)
      obtain rfl : ⟨dfa, ctx.budget⟩ = opened :=
        Except.ok.inj ((openCache_of_lookup hlookup).symm.trans hcache)
      have hopened : dfa.start = none ∨ 0 < dfa.size := by
        obtain ⟨i, hstart, -⟩ := hresolved
        exact .inr (Nat.zero_lt_of_lt (hexact.start i hstart).lt_size)
      obtain ⟨hspends, -⟩ :=
        Cache.traverse_spends (enabled_of_cached hcached) hexact.indexed hopened hmet
      refine ⟨last.dfa, ?_, hspends.continues.resolvedFor hresolved⟩
      rw [← hlineage, ← hid]
      exact lookup_store_self _ _ _
    · refine ⟨dfa, ?_, hresolved⟩
      rw [← hlookup]
      exact lookup_store_of_ne (Ne.symm hlineage) _ _

/-- **A warm context only looks up.** All that a walk of the value changes is the count of hits. -/
theorem Warm.replays (h : ctx.Warm snapshot value) (hsound : Sound published ctx)
    (hsnapshot : snapshot.PublishedIn published)
    (hepsilon : snapshot.automaton.deterministic = false) (hon : ctx.budget.disabled = false)
    {sets : List (List StateId)} (hsets : snapshot.automaton.SetsOf value sets)
    (incoming : List α) :
    ∃ found, ctx.traverseCached snapshot value incoming =
      .ok (found, { ctx with
        budget := ctx.budget.hitTimes (lookedUp (symbols value) sets).length }) := by
  obtain ⟨dfa, hlookup, hresolved⟩ := h
  have hopened := openCache_of_lookup hlookup
  obtain ⟨opened, hopened', hexact, -⟩ := hsound.openCache hsnapshot
  obtain rfl : ⟨dfa, ctx.budget⟩ = opened := Except.ok.inj (hopened.symm.trans hopened')
  obtain ⟨found, hfound⟩ :=
    Cache.traverse_replays ctx.config.threshold hexact hresolved hsets incoming
  refine ⟨found, ?_⟩
  unfold Context.traverseCached
  rw [if_neg (by simp [hepsilon, hon])]
  refine bind_eq_ok_iff.2 ⟨_, hopened, bind_eq_ok_iff.2 ⟨_, hfound, ?_⟩⟩
  -- the cache is stored where it was
  show Except.ok (found, ctx.closeCache snapshot ⟨dfa, _⟩) = _
  unfold closeCache
  rw [store_of_lookup hlookup]

end Context

/-! ### Calls in between -/

/-- **The call spares what is cached for the automaton**: it does not clear the cache, what it walks
through the cache has been published, and is no other edition of the automaton. -/
def Call.Spares (published : Publications α) (snapshot : Snapshot α)
    (call : Call α) : Prop :=
  call ≠ .clear ∧ ∀ other, call.walked? = some other →
    other.PublishedIn published ∧ (other.lineage = snapshot.lineage → other.id = snapshot.id)

namespace Context

variable [DecidableEq α] {published : Publications α} {ctx : Context α} {snapshot : Snapshot α}
  {value : Bytes}

/-- Calls that spare the automaton leave a context warm. -/
theorem warm_of_serveAll {calls : List (Call α)} {replies : List (Reply α)} {later : Context α}
    (hctx : Reachable published ctx) (h : ctx.Warm snapshot value)
    (hspares : ∀ call ∈ calls, call.Spares published snapshot)
    (hserved : serveAll serve ctx calls = .ok (replies, later)) :
    Reachable published later ∧ later.Warm snapshot value := by
  apply serveAll_keeps (P := fun ctx => Reachable published ctx ∧ ctx.Warm snapshot value) ?_
    ⟨hctx, h⟩ hserved
  rintro call hcall before reply next ⟨hbefore, hwarm⟩ hserve
  obtain ⟨hclear, hwalks⟩ := hspares call hcall
  rcases serve_cases hserve with rfl | ⟨other, value', incoming, found, hwalked, hwalk⟩ | ⟨rfl, -⟩
  · exact ⟨hbefore, hwarm⟩
  · obtain ⟨hother, hsame⟩ := hwalks other hwalked
    have hnext := hwarm.traverseCached hbefore.sound hother hsame hwalk
    exact ⟨.walked hbefore hother hwalk, hnext⟩
  · exact absurd rfl hclear

/-- **Walking a value again only hits.** Any context gives a result for the value. If caching is on
afterwards, then after any calls that do not clear the cache, walk no other edition of the automaton
through it and do not use up the budget, walking the value again finds the same list. All that this
changes in the state of the cache is the count of hits, by the number of bytes looked up on the way
through the sets of the value. -/
theorem warm_walks_only_hit (hctx : Reachable published ctx)
    (hsnapshot : snapshot.PublishedIn published)
    (hepsilon : snapshot.automaton.deterministic = false)
    (inside : snapshot.automaton.StepsInside) (value : Bytes) (incoming : List α) :
    ∃ found warm sets, ctx.traverseCached snapshot value incoming = .ok (found, warm) ∧
      (∀ sets', snapshot.automaton.SetsOf value sets' ↔ sets' = sets) ∧
      (warm.stats.disabled = false → ∀ calls replies later,
        (∀ call ∈ calls, call.Spares published snapshot) →
        serveAll serve warm calls = .ok (replies, later) → later.stats.disabled = false →
        ∃ last, later.traverseCached snapshot value incoming = .ok (found, last) ∧
          last.stats = { later.stats with
            hits := later.stats.hits + (lookedUp (symbols value) sets).length }) := by
  obtain ⟨found, warm, hwalk⟩ := hctx.sound.traverseCached_isOk hsnapshot inside value incoming
  obtain ⟨sets, hsets⟩ := Automaton.exists_setsOf inside value
  have hof : snapshot.automaton.SetsOf value sets := (hsets sets).2 rfl
  refine ⟨found, warm, sets, hwalk, hsets, ?_⟩
  intro hon calls replies later hspares hserved hstill
  have hwarm := hctx.sound.warm_of_traverseCached hsnapshot hepsilon hwalk hon
  obtain ⟨hlater, hkept⟩ :=
    warm_of_serveAll (.walked hctx hsnapshot hwalk) hwarm hspares hserved
  obtain ⟨found', hagain⟩ :=
    hkept.replays hlater.sound hsnapshot hepsilon hstill hof incoming
  -- both walks list the sets of the value
  have hfirst := hctx.sound.lists_sets hsnapshot hepsilon inside hof hwalk hon
  have hsecond := hlater.sound.lists_sets hsnapshot hepsilon inside hof hagain hstill
  obtain rfl : found' = found := hsecond.trans hfirst.symm
  exact ⟨_, hagain, rfl⟩

/-- The value `ba` walked through the automaton of `*a`. Then another automaton is walked, and another
value, and the state of the cache is asked for; walking `ba` again hits three times, once for each of
its bytes and once for the terminator. -/
theorem warm_walks_only_hit_star :
    let snapshot : Snapshot Nat := .first 0 (Glob.automaton [.star, .byte 97] 1)
    let other : Snapshot Nat := .first 1 (Glob.automaton [.star, .byte 98] 2)
    let published : Publications Nat := fun id =>
      if id = 0 then some snapshot else if id = 1 then some other else none
    let calls : List (Call Nat) :=
      [.traverseCached other [97] [], .traverseCached snapshot [97, 97] [], .stats]
    snapshot.PublishedIn published ∧ snapshot.automaton.deterministic = false ∧
      snapshot.automaton.StepsInside ∧ (∀ call ∈ calls, call.Spares published snapshot) ∧
      ∃ found warm replies later last sets,
        (ofConfig Config.default).traverseCached snapshot [98, 97] [7] = .ok (found, warm) ∧
        warm.stats.disabled = false ∧ serveAll serve warm calls = .ok (replies, later) ∧
        later.stats = ⟨2, 4, 4, 2, 6, false⟩ ∧ snapshot.automaton.SetsOf [98, 97] sets ∧
        later.traverseCached snapshot [98, 97] [7] = .ok (found, last) ∧
        last.stats = { later.stats with
          hits := later.stats.hits + (lookedUp (symbols [98, 97]) sets).length } ∧
        last.stats = ⟨2, 4, 4, 5, 6, false⟩ := by
  intro snapshot other published calls
  have hsnapshot : snapshot.PublishedIn published := rfl
  have hepsilon : snapshot.automaton.deterministic = false := by decide +kernel
  have inside : snapshot.automaton.StepsInside :=
    Automaton.stepsInside_of_runs (by decide +kernel)
  have hspares : ∀ call ∈ calls, call.Spares published snapshot := by
    intro call hcall
    simp only [calls, List.mem_cons, List.not_mem_nil, or_false] at hcall
    rcases hcall with rfl | rfl | rfl
    · refine ⟨nofun, fun walked hwalked => ?_⟩
      obtain rfl := Option.some.inj hwalked
      exact ⟨rfl, fun hlineage => absurd hlineage Nat.one_ne_zero⟩
    · refine ⟨nofun, fun walked hwalked => ?_⟩
      obtain rfl := Option.some.inj hwalked
      exact ⟨rfl, fun _ => rfl⟩
    · exact ⟨nofun, nofun⟩
  have hruns : (fun result => (result.1.stats.disabled, result.2.1.stats, result.2.2.stats)) <$>
      (show Except Fault (Context Nat × Context Nat × Context Nat) from do
        let (_, warm) ← (ofConfig Config.default).traverseCached snapshot [98, 97] [7]
        let (_, later) ← serveAll serve warm calls
        let (_, last) ← later.traverseCached snapshot [98, 97] [7]
        return (warm, later, last)) =
      .ok (false, ⟨2, 4, 4, 2, 6, false⟩, ⟨2, 4, 4, 5, 6, false⟩) := by
    -- down to the lists that are sorted, by merging, which the kernel does not evaluate
    simp only [calls, serveAll, serve, traverseCached, Cache.traverse, Cache.locateStart, symbols,
      List.cons_append, List.nil_append, Cache.trail, Cache.step, Cache.workOut,
      Automaton.successors, StateSet.sorted_eq_insertionSort]
    decide +kernel
  -- the walks and the calls apart
  obtain ⟨⟨_, _, _⟩, hdone, heq⟩ := map_eq_ok_iff.1 hruns
  obtain ⟨⟨found, warm⟩, hwalk, hdone⟩ := bind_eq_ok_iff.1 hdone
  obtain ⟨⟨replies, later⟩, hserved, hdone⟩ := bind_eq_ok_iff.1 hdone
  obtain ⟨⟨found', last⟩, hagain, hdone⟩ := bind_eq_ok_iff.1 hdone
  obtain ⟨rfl, hends⟩ := Prod.mk.inj (Except.ok.inj hdone)
  obtain ⟨rfl, rfl⟩ := Prod.mk.inj hends
  obtain ⟨hon, heq⟩ := Prod.mk.inj heq
  obtain ⟨hlater, hlast⟩ := Prod.mk.inj heq
  obtain ⟨_, _, sets, hwalk', hsets, hreplay⟩ :=
    warm_walks_only_hit (.fresh Config.default) hsnapshot hepsilon inside [98, 97] [7]
  obtain ⟨rfl, rfl⟩ := Prod.mk.inj (Except.ok.inj (hwalk.symm.trans hwalk'))
  have hstill : later.stats.disabled = false := congrArg Stats.disabled hlater
  obtain ⟨_, hagain', hstats⟩ := hreplay hon calls replies later hspares hserved hstill
  obtain ⟨rfl, rfl⟩ := Prod.mk.inj (Except.ok.inj (hagain.symm.trans hagain'))
  exact ⟨hsnapshot, hepsilon, inside, hspares, _, warm, replies, later, last, sets, hwalk, hon,
    hserved, hlater, (hsets sets).2 rfl, hagain, hstats, hlast⟩

end Context

end ByteMatch
