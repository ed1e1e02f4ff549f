import ByteMatch.Proofs.CachedWalk

/-!
# Caching does not show

A context may have walked any automata before, unrelated ones and editions of one lineage, and may
have run out of its budget anywhere on the way: what it finds in a value through its cache is what is
found without it (`Context.cached_walk_finds_the_same`).

What carries this through all histories is `Context.Sound`: every cache that a context holds is exact
for the automaton that was published under the identity noted with it, and the budget counts exactly
the sets held. The second part is needed for the first caches to be given back: a cache is dropped when
another edition of its lineage is met, and the budget would refuse to take back more than was taken
out.

Walks are identified by what was published, so the histories are taken relative to a table of
publications, in which an identity stands for one automaton.
-/

namespace ByteMatch

variable {α : Type}

/-- What was published under each identity. -/
abbrev Publications (α : Type) := Nat → Option (Snapshot α)

/-- The snapshot is what was published under its identity. -/
def Snapshot.PublishedIn (snapshot : Snapshot α) (published : Publications α) : Prop :=
  published snapshot.id = some snapshot

namespace Context

/-! ### The sets held -/

/-- The number of sets held for all lineages. -/
def heldSets : List (Nat × CachedEdition α) → Nat
  | [] => 0
  | entry :: caches => entry.2.dfa.size + heldSets caches

/-- The number of sets held for one lineage. -/
def heldFor (caches : List (Nat × CachedEdition α)) (lineage : Nat) : Nat :=
  ((caches.lookup lineage).map fun edition => edition.dfa.size).getD 0

variable {caches : List (Nat × CachedEdition α)} {lineage : Nat} {edition : CachedEdition α}

theorem mem_of_lookup (h : caches.lookup lineage = some edition) : (lineage, edition) ∈ caches := by
  obtain ⟨before, after, rfl, -⟩ := List.lookup_eq_some_iff.1 h
  exact List.mem_append_right _ List.mem_cons_self

theorem mem_store {entry : Nat × CachedEdition α} (h : entry ∈ store lineage edition caches) :
    entry = (lineage, edition) ∨ entry ∈ caches := by
  induction caches with
  | nil => exact .inl (List.mem_singleton.1 h)
  | cons first rest ih =>
    unfold store at h
    split at h
    · next heq =>
      subst heq
      rcases List.mem_cons.1 h with rfl | h
      · exact .inl rfl
      · exact .inr (List.mem_cons_of_mem _ h)
    · rcases List.mem_cons.1 h with rfl | h
      · exact .inr List.mem_cons_self
      · exact (ih h).imp_right (List.mem_cons_of_mem _)

/-- What is stored is found again. -/
theorem lookup_store_self (lineage : Nat) (edition : CachedEdition α)
    (caches : List (Nat × CachedEdition α)) :
    (store lineage edition caches).lookup lineage = some edition := by
  induction caches with
  | nil => exact List.lookup_cons_self
  | cons first rest ih =>
    obtain ⟨l, e⟩ := first
    by_cases h : l = lineage
    · rw [store, if_pos h, h, List.lookup_cons_self]
    · have hne : (lineage == l) = false := beq_eq_false_iff_ne.2 (Ne.symm h)
      rw [store, if_neg h, List.lookup_cons, hne]
      exact ih

/-- Other lineages keep what is cached for them. -/
theorem lookup_store_of_ne {other : Nat} (h : other ≠ lineage) (edition : CachedEdition α)
    (caches : List (Nat × CachedEdition α)) :
    (store lineage edition caches).lookup other = caches.lookup other := by
  have hne : (other == lineage) = false := beq_eq_false_iff_ne.2 h
  induction caches with
  | nil => rw [store, List.lookup_cons, hne]
  | cons first rest ih =>
    obtain ⟨l, e⟩ := first
    by_cases hl : l = lineage
    · rw [store, if_pos hl, hl, List.lookup_cons, List.lookup_cons, hne]
    · rw [store, if_neg hl, List.lookup_cons, List.lookup_cons, ih]

/-- Storing what is stored already changes nothing. -/
theorem store_of_lookup (h : caches.lookup lineage = some edition) :
    store lineage edition caches = caches := by
  induction caches with
  | nil => contradiction
  | cons first rest ih =>
    obtain ⟨l, e⟩ := first
    by_cases hl : l = lineage
    · subst hl
      rw [List.lookup_cons_self] at h
      rw [store, if_pos rfl, Option.some.inj h]
    · have hne : (lineage == l) = false := beq_eq_false_iff_ne.2 (Ne.symm hl)
      rw [List.lookup_cons, hne] at h
      rw [store, if_neg hl, ih h]

/-- What is stored takes the place of what was held for the lineage. -/
theorem heldSets_store (lineage : Nat) (edition : CachedEdition α)
    (caches : List (Nat × CachedEdition α)) :
    heldSets (store lineage edition caches) + heldFor caches lineage =
      heldSets caches + edition.dfa.size := by
  induction caches with
  | nil => exact Nat.add_comm _ 0
  | cons first rest ih =>
    obtain ⟨l, e⟩ := first
    by_cases h : l = lineage
    · -- stored in this place, where the sets counted for the lineage stand
      subst h
      rw [store, if_pos rfl, heldSets, heldSets, heldFor, List.lookup_cons_self]
      show edition.dfa.size + heldSets rest + e.dfa.size =
        e.dfa.size + heldSets rest + edition.dfa.size
      omega
    · -- the place is further behind, and so are the sets counted for the lineage
      have hne : (lineage == l) = false := by simpa using fun heq => h heq.symm
      have hlookup : heldFor ((l, e) :: rest) lineage = heldFor rest lineage := by
        rw [heldFor, List.lookup_cons, hne, heldFor]
      rw [store, if_neg h, heldSets, heldSets, hlookup]
      omega

theorem heldFor_le_heldSets (caches : List (Nat × CachedEdition α)) (lineage : Nat) :
    heldFor caches lineage ≤ heldSets caches := by
  -- what is left when an empty cache is stored instead
  have hstored := heldSets_store lineage ⟨0, SubsetDfa.empty⟩ caches
  have hempty : (SubsetDfa.empty : SubsetDfa α).size = 0 := rfl
  dsimp only at hstored
  omega

/-! ### What holds of a context through all of its history -/

variable [DecidableEq α] {published : Publications α} {ctx ctx' : Context α}
  {snapshot : Snapshot α} {value : Bytes} {incoming found : List α}

/-- **What a context holds is right.** -/
structure Sound (published : Publications α) (ctx : Context α) : Prop where
  /-- Each cache is exact for what was published under the identity noted. -/
  exact : ∀ entry ∈ ctx.caches, ∃ snapshot, published entry.2.id = some snapshot ∧
    SubsetDfa.Exact snapshot.automaton entry.2.dfa
  /-- The budget counts the sets held. -/
  used : ctx.budget.used = heldSets ctx.caches

omit [DecidableEq α] in
theorem budget_release (budget : Budget) {states : Nat} (h : states ≤ budget.used) :
    ∃ released, budget.release states = .ok released ∧ released.used + states = budget.used := by
  refine ⟨{ budget with used := budget.used - states }, if_pos h, ?_⟩
  exact Nat.sub_add_cancel h

/-- A sound context opens an exact cache, what was held for another edition having been given
back. -/
theorem Sound.openCache (h : Sound published ctx) (hsnapshot : snapshot.PublishedIn published) :
    ∃ cache, ctx.openCache snapshot = .ok cache ∧
      SubsetDfa.Exact snapshot.automaton cache.dfa ∧
      cache.budget.used + heldFor ctx.caches snapshot.lineage =
        ctx.budget.used + cache.dfa.size := by
  have hle := heldFor_le_heldSets ctx.caches snapshot.lineage
  rw [← h.used] at hle
  unfold Context.openCache heldFor at *
  cases hlookup : ctx.caches.lookup snapshot.lineage with
  | none => exact ⟨_, rfl, SubsetDfa.exact_empty _, rfl⟩
  | some edition =>
    simp only [hlookup, Option.map_some, Option.getD_some] at hle ⊢
    by_cases hid : edition.id = snapshot.id
    · obtain ⟨other, hother, hexact⟩ := h.exact _ (mem_of_lookup hlookup)
      -- one identity, one automaton
      obtain rfl : other = snapshot := by
        rw [show edition.id = snapshot.id from hid, hsnapshot] at hother
        exact (Option.some.inj hother).symm
      exact ⟨⟨edition.dfa, ctx.budget⟩, if_pos hid, hexact, rfl⟩
    · -- another edition: its sets are given back, and there are that many to give back
      obtain ⟨released, hreleased, hused⟩ := budget_release ctx.budget hle
      refine ⟨⟨SubsetDfa.empty, released⟩, ?_, SubsetDfa.exact_empty _, hused⟩
      rw [if_neg hid, hreleased]
      rfl

/-- A context stays sound when what was walked is kept. -/
theorem Sound.closeCache (h : Sound published ctx) (hsnapshot : snapshot.PublishedIn published)
    {cache cache' : Cache α} (hgrows : Cache.Grows snapshot.automaton cache cache')
    (hused : cache.budget.used + heldFor ctx.caches snapshot.lineage =
      ctx.budget.used + cache.dfa.size) : Sound published (ctx.closeCache snapshot cache') where
  exact entry hentry := by
    rcases mem_store hentry with rfl | hentry
    · exact ⟨snapshot, hsnapshot, hgrows.exact⟩
    · exact h.exact entry hentry
  used := by
    have hstored := heldSets_store snapshot.lineage ⟨snapshot.id, cache'.dfa⟩ ctx.caches
    have htaken := hgrows.used
    have hheld := h.used
    -- what was held for the lineage is gone, what is held for it now was taken from the budget
    show cache'.budget.used = heldSets (store snapshot.lineage ⟨snapshot.id, cache'.dfa⟩ ctx.caches)
    dsimp only at hstored
    omega

theorem sound_ofConfig (config : Config) : Sound published (Context.ofConfig config) where
  exact _ h := absurd h List.not_mem_nil
  used := rfl

theorem sound_clear (ctx : Context α) : Sound published ctx.clear where
  exact _ h := absurd h List.not_mem_nil
  used := rfl

omit [DecidableEq α] in
theorem enabled_of_cached (h : ¬ (snapshot.automaton.deterministic || ctx.budget.disabled) = true) :
    ctx.budget.disabled = false := by
  cases hoff : ctx.budget.disabled with
  | false => rfl
  | true => exact absurd (by rw [hoff, Bool.or_true]) h

/-- A context that walks with the cache walks without it after all, and stays as it is, or opens a
cache, walks through it and keeps what is left of it. -/
theorem traverseCached_cases
    (h : ctx.traverseCached snapshot value incoming = .ok (found, ctx')) :
    ((snapshot.automaton.deterministic || ctx.budget.disabled) = true ∧
      snapshot.automaton.traverse ctx.config.threshold value incoming = .ok found ∧ ctx' = ctx) ∨
    ¬ (snapshot.automaton.deterministic || ctx.budget.disabled) = true ∧
      ∃ cache last, ctx.openCache snapshot = .ok cache ∧
        cache.traverse snapshot.automaton ctx.config.threshold value incoming = .ok (found, last) ∧
        ctx' = ctx.closeCache snapshot last := by
  unfold Context.traverseCached at h
  split at h
  · next hplain =>
    obtain ⟨plain, hwalk, h⟩ := bind_eq_ok_iff.1 h
    obtain ⟨rfl, rfl⟩ := Prod.mk.inj (Except.ok.inj h)
    exact .inl ⟨hplain, hwalk, rfl⟩
  · next hcached =>
    obtain ⟨cache, hopen, h⟩ := bind_eq_ok_iff.1 h
    obtain ⟨⟨met, last⟩, hwalk, h⟩ := bind_eq_ok_iff.1 h
    obtain ⟨rfl, rfl⟩ := Prod.mk.inj (Except.ok.inj h)
    exact .inr ⟨hcached, cache, last, hopen, hwalk, rfl⟩

/-- **A cached walk keeps a context sound**, and answers the value if steps stay inside. -/
theorem Sound.traverseCached (h : Sound published ctx) (hsnapshot : snapshot.PublishedIn published)
    (hwalk : ctx.traverseCached snapshot value incoming = .ok (found, ctx')) :
    Sound published ctx' ∧
      (snapshot.automaton.StepsInside → snapshot.automaton.Answers value incoming found) := by
  rcases traverseCached_cases hwalk with ⟨-, hplain, rfl⟩ | ⟨-, cache, last, hcache, hmet, rfl⟩
  · -- an automaton without epsilon edges is walked without the cache
    exact ⟨h, fun _ => Automaton.answers_of_traverse hplain⟩
  · obtain ⟨opened, hopened, hexact, hused⟩ := h.openCache hsnapshot
    obtain rfl : opened = cache := Except.ok.inj (hopened.symm.trans hcache)
    -- opened, walked and closed again
    obtain ⟨hgrows, hanswers⟩ := Cache.traverse_spec hexact hmet
    exact ⟨h.closeCache hsnapshot hgrows hused, hanswers⟩

/-- A sound context gives a result if steps stay inside. -/
theorem Sound.traverseCached_isOk (h : Sound published ctx)
    (hsnapshot : snapshot.PublishedIn published) (inside : snapshot.automaton.StepsInside)
    (value : Bytes) (incoming : List α) :
    ∃ found ctx', ctx.traverseCached snapshot value incoming = .ok (found, ctx') := by
  unfold Context.traverseCached
  split
  · obtain ⟨plain, hplain⟩ :=
      Automaton.traverse_isOk inside ctx.config.threshold value incoming
    exact ⟨plain, ctx, bind_eq_ok_iff.2 ⟨plain, hplain, rfl⟩⟩
  · obtain ⟨cache, hcache, hexact, -⟩ := h.openCache hsnapshot
    obtain ⟨⟨met, last⟩, hmet⟩ :=
      Cache.traverse_isOk inside hexact ctx.config.threshold value incoming
    exact ⟨met, ctx.closeCache snapshot last,
      bind_eq_ok_iff.2 ⟨cache, hcache, bind_eq_ok_iff.2 ⟨_, hmet, rfl⟩⟩⟩

/-! ### Histories -/

/-- The contexts that come about from fresh ones by walking, with the cache, what has been published,
and by clearing. Walks without the cache leave a context as it is. -/
inductive Reachable (published : Publications α) : Context α → Prop
  | fresh (config : Config) : Reachable published (ofConfig config)
  | walked {ctx ctx' : Context α} {snapshot : Snapshot α} {value : Bytes}
      {incoming found : List α} :
      Reachable published ctx → snapshot.PublishedIn published →
      ctx.traverseCached snapshot value incoming = .ok (found, ctx') → Reachable published ctx'
  | cleared {ctx : Context α} : Reachable published ctx → Reachable published ctx.clear

theorem Reachable.sound (h : Reachable published ctx) : Sound published ctx := by
  induction h with
  | fresh config => exact sound_ofConfig config
  | walked _ hsnapshot hwalk ih => exact (ih.traverseCached hsnapshot hwalk).1
  | cleared _ _ => exact sound_clear _

/-- **Caching does not show.** Whatever a context has walked before and whatever is left of its
budget, walking through its cache gives a list without duplicates that begins with what came in and
has the payloads that walking without a cache finds. -/
theorem cached_walk_finds_the_same (hctx : Reachable published ctx)
    (hsnapshot : snapshot.PublishedIn published) (inside : snapshot.automaton.StepsInside)
    (value : Bytes) (incoming : List α) :
    ∃ found ctx', ctx.traverseCached snapshot value incoming = .ok (found, ctx') ∧
      found.Nodup ∧ incoming.eraseDups <+: found ∧
      ∀ threshold, ∃ plain,
        snapshot.automaton.traverse threshold value incoming = .ok plain ∧
          ∀ p, p ∈ found ↔ p ∈ plain := by
  obtain ⟨found, ctx', hwalk⟩ := hctx.sound.traverseCached_isOk hsnapshot inside value incoming
  have hanswers := (hctx.sound.traverseCached hsnapshot hwalk).2 inside
  refine ⟨found, ctx', hwalk, hanswers.nodup, hanswers.incoming_first, fun threshold => ?_⟩
  obtain ⟨plain, hplain⟩ := Automaton.traverse_isOk inside threshold value incoming
  refine ⟨plain, hplain, fun p => ?_⟩
  rw [hanswers.mem_iff, (Automaton.answers_of_traverse hplain).mem_iff]

/-- A walk of `xa` through the automaton of `*a`, in a context that has room for one set and has
walked `ab` before. -/
theorem cached_walk_finds_the_same_after_another :
    let snapshot : Snapshot Nat := .first 0 (Glob.automaton [.star, .byte 97] 1)
    let published : Publications Nat := fun id => if id = 0 then some snapshot else none
    let fresh : Context Nat := ofConfig (Config.default.setCapacity 1)
    snapshot.PublishedIn published ∧ snapshot.automaton.StepsInside ∧
      ∃ before ctx, fresh.traverseCached snapshot [97, 98] [] = .ok (before, ctx) ∧
        Reachable published ctx ∧
        ∃ found ctx', ctx.traverseCached snapshot [120, 97] [7, 7] = .ok (found, ctx') ∧
          found.Nodup ∧ [7, 7].eraseDups <+: found ∧
          ∀ threshold, ∃ plain,
            snapshot.automaton.traverse threshold [120, 97] [7, 7] = .ok plain ∧
              ∀ p, p ∈ found ↔ p ∈ plain := by
  intro snapshot published fresh
  have hsnapshot : snapshot.PublishedIn published := rfl
  have inside : snapshot.automaton.StepsInside :=
    Automaton.stepsInside_of_runs (by decide +kernel)
  obtain ⟨before, ctx, hwalk, -⟩ :=
    cached_walk_finds_the_same (.fresh _) hsnapshot inside [97, 98] []
  have hctx : Reachable published ctx := .walked (.fresh _) hsnapshot hwalk
  exact ⟨hsnapshot, inside, before, ctx, hwalk, hctx,
    cached_walk_finds_the_same hctx hsnapshot inside [120, 97] [7, 7]⟩

end Context

end ByteMatch
