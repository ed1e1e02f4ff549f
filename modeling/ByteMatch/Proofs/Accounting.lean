import ByteMatch.Proofs.Spending
import ByteMatch.Proofs.Transparency

/-!
# The budget of a context is accounted for

A context has one budget for everything that it caches. This module follows it through any
operations, whatever automata they walk: identities and lineages may even be such as were never
handed out.

`Context.Accounts config given ctx` is what holds between operations: the budget counts exactly the
sets held, every set ever created is either held or among the `given` ones, those that were given
back, and caching is off only with the budget used up. An operation keeps it
(`Context.Accounts.perform`), with what it gives back (`Context.releasedBy`) added to `given`, so it
holds after any run (`Context.Accounts.run`).

How the numbers move at a single operation is `Context.Orderly`; `Context.budget_is_accounted_for`
puts both together.
-/

namespace ByteMatch

variable {α : Type}

namespace Context

/-! ### Operations -/

/-- What can be done with a context. -/
inductive Operation (α : Type) where
  /-- Walks a value without the cache. -/
  | traverse (fa : Automaton α) (value : Bytes) (incoming : List α)
  /-- Walks a value through the cache. -/
  | traverseCached (snapshot : Snapshot α) (value : Bytes) (incoming : List α)
  /-- Clears the cache. -/
  | clear

/-- An operation that was performed. -/
structure Performed (α : Type) where
  /-- The context with which it was performed. -/
  before : Context α
  operation : Operation α
  found : List α

/-- Performs an operation. Clearing finds nothing. -/
def perform [DecidableEq α] (ctx : Context α) : Operation α → Except Fault (List α × Context α)
  | .traverse fa value incoming => (·, ctx) <$> ctx.traverse fa value incoming
  | .traverseCached snapshot value incoming => ctx.traverseCached snapshot value incoming
  | .clear => .ok ([], ctx.clear)

/-- Performs operations one after the other. -/
def run [DecidableEq α] :
    Context α → List (Operation α) → Except Fault (List (Performed α) × Context α)
  | ctx, [] => .ok ([], ctx)
  | ctx, operation :: operations => do
    let (found, next) ← ctx.perform operation
    let (performed, last) ← run next operations
    return (⟨ctx, operation, found⟩ :: performed, last)

/-! ### What is given back -/

/-- What is kept of this very edition. -/
def keptSets (ctx : Context α) (snapshot : Snapshot α) : SubsetDfa α :=
  match ctx.caches.lookup snapshot.lineage with
  | none => SubsetDfa.empty
  | some edition => if edition.id = snapshot.id then edition.dfa else SubsetDfa.empty

/-- The number of sets kept of another edition of its lineage. -/
def staleSets (ctx : Context α) (snapshot : Snapshot α) : Nat :=
  match ctx.caches.lookup snapshot.lineage with
  | none => 0
  | some edition => if edition.id = snapshot.id then 0 else edition.dfa.size

/-- The number of sets that an operation gives back to the budget: all of them if the cache is
cleared, those of another edition if the cache is walked. -/
def releasedBy (ctx : Context α) : Operation α → Nat
  | .traverse _ _ _ => 0
  | .traverseCached snapshot _ _ =>
    if snapshot.automaton.deterministic || ctx.budget.disabled then 0 else ctx.staleSets snapshot
  | .clear => heldSets ctx.caches

/-- The number of sets that operations have given back. -/
def released : List (Performed α) → Nat
  | [] => 0
  | done :: performed => done.before.releasedBy done.operation + released performed

variable {caches : List (Nat × CachedEdition α)} {lineage : Nat} {edition : CachedEdition α}
  {ctx ctx' last : Context α} {snapshot : Snapshot α}

/-- What is held for a lineage is kept or stale. -/
private theorem heldFor_eq (ctx : Context α) (snapshot : Snapshot α) :
    heldFor ctx.caches snapshot.lineage =
      ctx.staleSets snapshot + (ctx.keptSets snapshot).size := by
  unfold heldFor staleSets keptSets
  cases ctx.caches.lookup snapshot.lineage with
  | none => rfl
  | some edition =>
    -- one edition is cached for the lineage, and it is this one or another
    by_cases hid : edition.id = snapshot.id
    · simp only [Option.map_some, Option.getD_some, if_pos hid, Nat.zero_add]
    · simp only [Option.map_some, Option.getD_some, if_neg hid]
      rfl

/-- A cache can be opened if the budget can take back what is stale. -/
theorem openCache_eq (h : ctx.staleSets snapshot ≤ ctx.budget.used) :
    ctx.openCache snapshot = .ok ⟨ctx.keptSets snapshot,
      { ctx.budget with used := ctx.budget.used - ctx.staleSets snapshot }⟩ := by
  unfold openCache staleSets keptSets at *
  cases hlookup : ctx.caches.lookup snapshot.lineage with
  | none => rfl
  | some edition =>
    simp only [hlookup] at h ⊢
    by_cases hid : edition.id = snapshot.id
    · simp only [if_pos hid, Nat.sub_zero]
    · simp only [if_neg hid] at h ⊢
      rw [Budget.release, if_pos h]
      rfl

/-! ### Counting caches -/

private theorem mem_store_self (lineage : Nat) (edition : CachedEdition α)
    (caches : List (Nat × CachedEdition α)) :
    (lineage, edition) ∈ store lineage edition caches :=
  mem_of_lookup (lookup_store_self lineage edition caches)

/-- Caches that hold something are at most as many as the sets held. -/
theorem length_le_heldSets (h : ∀ entry ∈ caches, 0 < entry.2.dfa.size) :
    caches.length ≤ heldSets caches := by
  induction caches with
  | nil => exact Nat.le_refl 0
  | cons first rest ih =>
    -- the first cache holds a set at least, and the others as many as they are
    have hfirst := h first List.mem_cons_self
    have hrest := ih fun entry hentry => h entry (List.mem_cons_of_mem _ hentry)
    rw [List.length_cons, heldSets]
    omega

/-- At most the cache that was stored last holds nothing. -/
private theorem length_store_le (h : ∀ entry ∈ caches, 0 < entry.2.dfa.size) (lineage : Nat)
    (edition : CachedEdition α) :
    (store lineage edition caches).length ≤ heldSets (store lineage edition caches) + 1 := by
  induction caches with
  | nil => exact Nat.le_add_left 1 _
  | cons first rest ih =>
    obtain ⟨l, e⟩ := first
    have hfirst : 0 < e.dfa.size := h (l, e) List.mem_cons_self
    have hpositive : ∀ entry ∈ rest, 0 < entry.2.dfa.size :=
      fun entry hentry => h entry (List.mem_cons_of_mem _ hentry)
    unfold store
    split
    · -- it takes the place of the first cache
      have hrest := length_le_heldSets hpositive
      rw [List.length_cons, heldSets]
      omega
    · have hrest := ih hpositive
      rw [List.length_cons, heldSets]
      dsimp only
      omega

/-! ### What holds between operations -/

/-- **The budget is accounted for**, `given` sets having been given back so far. -/
structure Accounts (config : Config) (given : Nat) (ctx : Context α) : Prop where
  capacity_eq : ctx.budget.capacity = config.capacity
  used : ctx.budget.used = heldSets ctx.caches
  used_le : ctx.budget.used ≤ ctx.budget.capacity
  creates : ctx.budget.creates = ctx.budget.used + given
  /-- While caching is on, every cache holds something. -/
  positive : ctx.budget.disabled = false → ∀ entry ∈ ctx.caches, 0 < entry.2.dfa.size
  length_le : ctx.caches.length ≤ heldSets ctx.caches + 1
  full : ctx.budget.disabled = true → ctx.budget.capacity ≤ ctx.budget.used
  indexed : ∀ entry ∈ ctx.caches, entry.2.dfa.Indexed

theorem accounts_ofConfig (config : Config) : Accounts config 0 (ofConfig config : Context α) where
  capacity_eq := rfl
  used := rfl
  used_le := Nat.zero_le _
  creates := rfl
  positive _ _ h := absurd h List.not_mem_nil
  length_le := Nat.zero_le _
  full h := absurd h Bool.false_ne_true
  indexed _ h := absurd h List.not_mem_nil

variable {config : Config} {given : Nat}

theorem Accounts.clear (h : Accounts config given ctx) :
    Accounts config (given + heldSets ctx.caches) ctx.clear where
  capacity_eq := h.capacity_eq
  used := rfl
  used_le := Nat.zero_le _
  creates := by
    have hcreates := h.creates
    have hused := h.used
    -- what was used is given back, so the sum stays
    show ctx.budget.creates = 0 + (given + heldSets ctx.caches)
    omega
  positive _ _ hentry := absurd hentry List.not_mem_nil
  length_le := Nat.zero_le _
  full hoff := absurd hoff Bool.false_ne_true
  indexed _ hentry := absurd hentry List.not_mem_nil

/-- The budget can take back what is stale. -/
theorem Accounts.staleSets_le (h : Accounts config given ctx) (snapshot : Snapshot α) :
    ctx.staleSets snapshot ≤ ctx.budget.used := by
  have hle := heldFor_le_heldSets ctx.caches snapshot.lineage
  have hheld := ctx.heldFor_eq snapshot
  have hused := h.used
  omega

/-- What is kept of an edition holds something, or it is nothing at all. -/
theorem Accounts.keptSets_opened (h : Accounts config given ctx)
    (henabled : ctx.budget.disabled = false) (snapshot : Snapshot α) :
    (ctx.keptSets snapshot).start = none ∨ 0 < (ctx.keptSets snapshot).size := by
  unfold keptSets
  cases hlookup : ctx.caches.lookup snapshot.lineage with
  | none => exact .inl rfl
  | some edition =>
    by_cases hid : edition.id = snapshot.id
    · simp only [if_pos hid]
      exact .inr (h.positive henabled _ (mem_of_lookup hlookup))
    · simp only [if_neg hid]
      exact .inl rfl

/-- What is kept of an edition is indexed, be it nothing at all. -/
theorem Accounts.keptSets_indexed (h : Accounts config given ctx) (snapshot : Snapshot α) :
    (ctx.keptSets snapshot).Indexed := by
  unfold keptSets
  cases hlookup : ctx.caches.lookup snapshot.lineage with
  | none => exact SubsetDfa.indexed_empty
  | some edition =>
    by_cases hid : edition.id = snapshot.id
    · simp only [if_pos hid]
      exact h.indexed _ (mem_of_lookup hlookup)
    · simp only [if_neg hid]
      exact SubsetDfa.indexed_empty

/-- **A walk keeps the budget accounted for**: stale sets are given back, new ones are taken. -/
theorem Accounts.closeCache (h : Accounts config given ctx)
    (henabled : ctx.budget.disabled = false) {cache : Cache α}
    (hspends : Cache.Spends ⟨ctx.keptSets snapshot,
      { ctx.budget with used := ctx.budget.used - ctx.staleSets snapshot }⟩ cache)
    (hfull : cache.budget.disabled = true → cache.budget.capacity ≤ cache.budget.used)
    (hpositive : cache.budget.disabled = false → 0 < cache.dfa.size) :
    Accounts config (given + ctx.staleSets snapshot) (ctx.closeCache snapshot cache) where
  capacity_eq := hspends.capacity_eq.trans h.capacity_eq
  used := by
    have hstored := heldSets_store snapshot.lineage ⟨snapshot.id, cache.dfa⟩ ctx.caches
    have hheld := ctx.heldFor_eq snapshot
    have hstale := h.staleSets_le snapshot
    have hused := h.used
    have htaken := hspends.used
    -- stale sets are out of both sums, new ones are in both
    show cache.budget.used = heldSets (store snapshot.lineage ⟨snapshot.id, cache.dfa⟩ ctx.caches)
    dsimp only at hstored htaken
    omega
  used_le := by
    have hle := h.used_le
    exact hspends.used_le (by dsimp only; omega)
  creates := by
    have hstale := h.staleSets_le snapshot
    have hcreates := h.creates
    have htaken := hspends.used
    have hnew := hspends.creates
    -- creating raises what is used as well, giving back lowers it and raises what was given
    show cache.budget.creates = cache.budget.used + (given + ctx.staleSets snapshot)
    dsimp only at htaken hnew
    omega
  positive hstill entry hentry := by
    rcases mem_store hentry with rfl | hentry
    · exact hpositive hstill
    · exact h.positive henabled entry hentry
  length_le := length_store_le (h.positive henabled) _ _
  full := hfull
  indexed entry hentry := by
    rcases mem_store hentry with rfl | hentry
    · exact hspends.indexed (h.keptSets_indexed snapshot)
    · exact h.indexed entry hentry

/-! ### Operations one by one -/

/-- **What an operation does to the numbers.** -/
structure Orderly [DecidableEq α] (config : Config) (ctx : Context α) (operation : Operation α)
    (ctx' : Context α) : Prop where
  creates_le : ctx.stats.creates ≤ ctx'.stats.creates
  hits_le : ctx.stats.hits ≤ ctx'.stats.hits
  misses_le : ctx.stats.misses ≤ ctx'.stats.misses
  /-- Caching goes off where the budget is used up and the value walked comes to a set that is not
  kept. -/
  goes_off : ctx.stats.disabled = false → ctx'.stats.disabled = true →
    ctx'.stats.states = config.capacity ∧
      ∃ snapshot value incoming, operation = .traverseCached snapshot value incoming ∧
        ∃ edition, (snapshot.lineage, edition) ∈ ctx'.caches ∧ edition.id = snapshot.id ∧
          edition.dfa.LacksFor snapshot.automaton value
  /-- While caching is off, only clearing changes anything. -/
  frozen : ctx.stats.disabled = true → operation ≠ .clear → ctx' = ctx
  /-- Clearing switches caching on. -/
  goes_on : operation = .clear → ctx'.stats.disabled = false

variable [DecidableEq α] {operation : Operation α} {value : Bytes} {incoming found : List α}

theorem orderly_refl (hclear : operation ≠ .clear) (ctx : Context α) :
    Orderly config ctx operation ctx where
  creates_le := Nat.le_refl _
  hits_le := Nat.le_refl _
  misses_le := Nat.le_refl _
  goes_off hon hoff := absurd (hon.symm.trans hoff) Bool.false_ne_true
  frozen _ _ := rfl
  goes_on h := absurd h hclear

theorem orderly_clear (ctx : Context α) : Orderly config ctx .clear ctx.clear where
  creates_le := Nat.le_refl _
  hits_le := Nat.le_refl _
  misses_le := Nat.le_refl _
  goes_off _ hoff := absurd hoff Bool.false_ne_true
  frozen _ h := absurd rfl h
  goes_on _ := rfl

theorem Accounts.traverseCached (h : Accounts config given ctx)
    (hwalk : ctx.traverseCached snapshot value incoming = .ok (found, ctx')) :
    Accounts config (given + ctx.releasedBy (.traverseCached snapshot value incoming)) ctx' ∧
      Orderly config ctx (.traverseCached snapshot value incoming) ctx' := by
  have hclear : Operation.traverseCached snapshot value incoming ≠ .clear := nofun
  rw [releasedBy]
  rcases traverseCached_cases hwalk with ⟨hplain, -, rfl⟩ |
    ⟨hcached, opened, cache, hopened, hmet, rfl⟩
  · -- the cache is not walked
    rw [if_pos hplain]
    exact ⟨h, orderly_refl hclear _⟩
  · have henabled := enabled_of_cached hcached
    rw [openCache_eq (h.staleSets_le snapshot)] at hopened
    obtain rfl := Except.ok.inj hopened
    obtain ⟨hspends, hoff, hon⟩ := Cache.traverse_spends henabled (h.keptSets_indexed snapshot)
      (h.keptSets_opened henabled snapshot) hmet
    have haccounts := h.closeCache henabled hspends (fun hd => (hoff hd).1) hon
    rw [if_neg hcached]
    refine ⟨haccounts, ?_, hspends.hits_le, hspends.misses_le, fun _ hdisabled => ?_, ?_, ?_⟩
    · -- giving back leaves the number of sets created alone
      have hnew := hspends.creates
      have hsize := hspends.continues.kept.size_le
      show ctx.budget.creates ≤ cache.budget.creates
      dsimp only at hnew hsize
      omega
    · -- the budget was used up where the walk wanted one more set
      refine ⟨?_, snapshot, value, incoming, rfl, ⟨snapshot.id, cache.dfa⟩,
        mem_store_self _ _ _, rfl, (hoff hdisabled).2⟩
      rw [← haccounts.capacity_eq]
      exact Nat.le_antisymm haccounts.used_le (haccounts.full hdisabled)
    · exact fun hdisabled _ => absurd (henabled.symm.trans hdisabled) Bool.false_ne_true
    · exact fun hop => absurd hop hclear

/-- **Every operation keeps the budget accounted for** and moves the numbers in order. -/
theorem Accounts.perform (h : Accounts config given ctx)
    (hperform : ctx.perform operation = .ok (found, ctx')) :
    Accounts config (given + ctx.releasedBy operation) ctx' ∧
      Orderly config ctx operation ctx' := by
  cases operation with
  | traverse fa value incoming =>
    obtain ⟨plain, -, heq⟩ := map_eq_ok_iff.1 hperform
    obtain ⟨-, rfl⟩ := Prod.mk.inj heq
    -- without the cache nothing changes
    have hclear : Operation.traverse fa value incoming ≠ .clear := nofun
    exact ⟨h, orderly_refl hclear ctx⟩
  | traverseCached snapshot value incoming => exact h.traverseCached hperform
  | clear =>
    obtain ⟨-, rfl⟩ := Prod.mk.inj (Except.ok.inj hperform)
    exact ⟨h.clear, orderly_clear ctx⟩

/-- No operation gives back more than was taken out. -/
theorem Accounts.neverOverReleases (h : Accounts config given ctx) (operation : Operation α) :
    NeverOverReleases (ctx.perform operation) := by
  cases operation with
  | traverse fa value incoming => exact (NeverOverReleases.traverse fa _ value incoming).map _
  | traverseCached snapshot value incoming =>
    show NeverOverReleases (ctx.traverseCached snapshot value incoming)
    unfold Context.traverseCached
    split
    · exact (NeverOverReleases.traverse _ _ value incoming).bind fun _ => .ok _
    · -- what is given back is part of what is held, so it can be
      rw [openCache_eq (h.staleSets_le snapshot)]
      exact (NeverOverReleases.cachedTraverse _ _ _ value incoming).bind fun _ => .ok _
  | clear => exact .ok _

/-! ### Runs -/

/-- **What is kept by an operation is kept by a run.** -/
theorem Accounts.run {operations : List (Operation α)} {performed : List (Performed α)}
    (h : Accounts config given ctx) (hrun : ctx.run operations = .ok (performed, last)) :
    Accounts config (given + released performed) last := by
  induction operations generalizing ctx given performed with
  | nil =>
    obtain ⟨rfl, rfl⟩ := Prod.mk.inj (Except.ok.inj hrun)
    exact h
  | cons operation operations ih =>
    obtain ⟨⟨found, next⟩, hperform, hrun⟩ := bind_eq_ok_iff.1 hrun
    obtain ⟨⟨later, _⟩, hlater, hrun⟩ := bind_eq_ok_iff.1 hrun
    obtain ⟨rfl, rfl⟩ := Prod.mk.inj (Except.ok.inj hrun)
    -- the rest of the run starts from what was given back up to here
    have hlast := ih (h.perform hperform).1 hlater
    rwa [Nat.add_assoc] at hlast

/-- While caching is off, a run that does not clear the cache leaves the context as it is. -/
theorem Accounts.run_of_disabled {operations : List (Operation α)} {performed : List (Performed α)}
    (h : Accounts config given ctx) (hoff : ctx.budget.disabled = true)
    (hclear : .clear ∉ operations) (hrun : ctx.run operations = .ok (performed, last)) :
    last = ctx := by
  induction operations generalizing performed with
  | nil => exact (Prod.mk.inj (Except.ok.inj hrun)).2.symm
  | cons operation operations ih =>
    rw [List.mem_cons, not_or] at hclear
    obtain ⟨⟨found, next⟩, hperform, hrun⟩ := bind_eq_ok_iff.1 hrun
    obtain ⟨⟨later, _⟩, hlater, hrun⟩ := bind_eq_ok_iff.1 hrun
    obtain ⟨-, rfl⟩ := Prod.mk.inj (Except.ok.inj hrun)
    -- the operation has left the context as it was, so the next one finds caching still off
    obtain rfl : next = ctx := (h.perform hperform).2.frozen hoff (Ne.symm hclear.1)
    exact ih hclear.2 hlater

/-- **What can be said of a context** with which operations have been performed. -/
structure Balanced (config : Config) (performed : List (Performed α)) (ctx : Context α) : Prop where
  /-- The number of states told is that of the sets held. -/
  states_eq : ctx.stats.states = heldSets ctx.caches
  states_le : ctx.stats.states ≤ config.capacity
  /-- The sets created are those held and those that were given back. -/
  creates_eq : ctx.stats.creates = ctx.stats.states + released performed
  caches_le : ctx.stats.disabled = false → ctx.stats.caches ≤ ctx.stats.states
  caches_le_succ : ctx.stats.disabled = true → ctx.stats.caches ≤ ctx.stats.states + 1
  /-- Caching is off only with the budget used up. -/
  full : ctx.stats.disabled = true → ctx.stats.states = config.capacity
  /-- Then nothing changes any more, until the cache is cleared. -/
  frozen : ctx.stats.disabled = true → ∀ operations later last, .clear ∉ operations →
    ctx.run operations = .ok (later, last) → last = ctx
  /-- No operation gives back more than was taken out. -/
  neverOverReleases : ∀ operation, NeverOverReleases (ctx.perform operation)
  orderly : ∀ operation found ctx', ctx.perform operation = .ok (found, ctx') →
    Orderly config ctx operation ctx'

theorem Accounts.balanced {performed : List (Performed α)}
    (h : Accounts config (released performed) ctx) : Balanced config performed ctx where
  states_eq := h.used
  states_le := by
    rw [← h.capacity_eq]
    exact h.used_le
  creates_eq := h.creates
  caches_le hon := by
    show ctx.caches.length ≤ ctx.budget.used
    rw [h.used]
    exact length_le_heldSets (h.positive hon)
  caches_le_succ _ := by
    show ctx.caches.length ≤ ctx.budget.used + 1
    rw [h.used]
    exact h.length_le
  full hoff := by
    rw [← h.capacity_eq]
    exact Nat.le_antisymm h.used_le (h.full hoff)
  frozen hoff _ _ _ hclear hrun := h.run_of_disabled hoff hclear hrun
  neverOverReleases := h.neverOverReleases
  orderly _ _ _ hperform := (h.perform hperform).2

/-- **The budget is accounted for**, whatever a context is used for. -/
theorem budget_is_accounted_for {operations : List (Operation α)} {performed : List (Performed α)}
    (hrun : (ofConfig config).run operations = .ok (performed, ctx)) :
    Balanced config performed ctx := by
  have h := (accounts_ofConfig config).run hrun
  rw [Nat.zero_add] at h
  exact h.balanced

/-- A context with room for two sets that walks the automaton of `*a` and then another edition of
it: the one set of the first is given back, and the second is cut short at two. -/
theorem budget_is_accounted_for_next_edition :
    let star : Snapshot Nat := .first 0 (Glob.automaton [.star, .byte 97] 1)
    let operations : List (Operation Nat) :=
      [.traverseCached star [98] [], .traverseCached (star.extend 1 star.automaton) [97] []]
    let config := Config.default.setCapacity 2
    ∃ performed ctx, (ofConfig config).run operations = .ok (performed, ctx) ∧
      ctx.stats = ⟨1, 2, 3, 0, 4, true⟩ ∧ released performed = 1 ∧
      Balanced config performed ctx := by
  intro star operations config
  have hstats : (fun result => (result.2.stats, released result.1)) <$>
      (ofConfig config).run operations = .ok (⟨1, 2, 3, 0, 4, true⟩, 1) := by
    -- down to the lists that are sorted, by merging, which the kernel does not evaluate
    simp only [operations, run, perform, traverseCached, Cache.traverse, Cache.locateStart, symbols,
      List.cons_append, List.nil_append, Cache.trail, Cache.step, Cache.workOut,
      Automaton.successors, StateSet.sorted_eq_insertionSort]
    decide +kernel
  obtain ⟨⟨performed, ctx⟩, hrun, heq⟩ := map_eq_ok_iff.1 hstats
  obtain ⟨hctx, hreleased⟩ := Prod.mk.inj heq
  exact ⟨performed, ctx, hrun, hctx, hreleased, budget_is_accounted_for hrun⟩

end Context

end ByteMatch
