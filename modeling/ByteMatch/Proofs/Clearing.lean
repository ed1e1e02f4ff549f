import ByteMatch.Proofs.Accounting
import ByteMatch.Proofs.BufferedWalks

/-!
# A cleared context is as good as a new one

Clearing gives back everything cached and switches caching on, but it leaves two things behind: the
counts of what has been created and looked up, and whatever the last walk has left in the buffers.
Neither has any influence on what is found later. The buffers do not show at all
(`BufferedContext.serveAll_alike`). The counts are only ever added to, so a context that begins with
some of them does in every step what one that begins with none does, and is ahead by the same counts
afterwards: `raise` commutes with everything that is done to a budget, a cache and a context
(`Context.serve_raise` for a single call).

A context that has just been cleared is a new one raised by its counts (`Context.clear_eq_raise`), so
it serves any calls as a new one does, its counts being told on top
(`BufferedContext.clear_is_as_good_as_new`).
-/

namespace ByteMatch

/-- What a budget has counted. -/
structure Counts where
  creates : Nat
  hits : Nat
  misses : Nat
deriving DecidableEq, Repr

/-! ### Budgets that have counted before -/

namespace Budget

/-- The budget with `past` counted before. -/
def raise (past : Counts) (budget : Budget) : Budget :=
  { budget with
    creates := budget.creates + past.creates
    hits := budget.hits + past.hits
    misses := budget.misses + past.misses }

variable (past : Counts) (budget : Budget)

@[simp] theorem raise_capacity : (budget.raise past).capacity = budget.capacity := rfl

@[simp] theorem raise_used : (budget.raise past).used = budget.used := rfl

@[simp] theorem raise_disabled : (budget.raise past).disabled = budget.disabled := rfl

theorem hit_raise : (budget.raise past).hit = budget.hit.raise past := by
  unfold hit raise
  rw [Nat.add_right_comm]

theorem miss_raise : (budget.raise past).miss = budget.miss.raise past := by
  unfold miss raise
  rw [Nat.add_right_comm]

/-- Whether there is room does not depend on what was counted. -/
theorem reserve?_raise : (budget.raise past).reserve? = budget.reserve?.map (raise past) := by
  unfold reserve?
  rw [raise_disabled, raise_capacity, raise_used]
  by_cases h : budget.disabled ∨ budget.capacity ≤ budget.used
  · rw [if_pos h, if_pos h, Option.map_none]
  · -- a set that is created is counted before or after the past
    rw [if_neg h, if_neg h, Option.map_some]
    unfold raise
    rw [Nat.add_right_comm]

theorem release_raise (states : Nat) :
    SameOutcome (fun raised plain => raised = raise past plain)
      ((budget.raise past).release states) (budget.release states) := by
  unfold release
  rw [raise_used]
  by_cases h : states ≤ budget.used
  · rw [if_pos h, if_pos h]
    exact .ok rfl
  · rw [if_neg h, if_neg h]
    exact .fault _

end Budget

/-! ### Walks with a budget that has counted before -/

variable {α : Type}

namespace Cache

/-- The cache with `past` counted before. -/
def raise (past : Counts) (cache : Cache α) : Cache α :=
  { cache with budget := cache.budget.raise past }

@[simp] theorem raise_dfa (past : Counts) (cache : Cache α) : (cache.raise past).dfa = cache.dfa := rfl

@[simp] theorem raise_budget (past : Counts) (cache : Cache α) :
    (cache.raise past).budget = cache.budget.raise past := rfl

/-- What comes with a cache is the same, and the cache has counted `past` before. -/
def Raised {β : Type} (past : Counts) (raised plain : β × Cache α) : Prop :=
  raised = (plain.1, plain.2.raise past)

variable [DecidableEq α] (past : Counts) (cache : Cache α) {fa : Automaton α} {threshold : Nat}

theorem locate_raise (members : List StateId) :
    (cache.raise past).locate fa members =
      ((cache.locate fa members).1, (cache.locate fa members).2.raise past) := by
  unfold locate
  rw [raise_dfa]
  cases cache.dfa.find? members with
  | some index => rfl
  | none =>
    dsimp only
    rw [raise_budget, Budget.reserve?_raise]
    -- what is kept is the same in both, so it is only about whether there is room
    cases cache.budget.reserve? with
    | none => rfl
    | some budget => rfl

theorem locateStart_raise :
    (cache.raise past).locateStart fa =
      ((cache.locateStart fa).1, (cache.locateStart fa).2.raise past) := by
  unfold locateStart
  rw [raise_dfa]
  cases cache.dfa.start with
  | some index => rfl
  | none =>
    dsimp only
    rw [locate_raise]
    -- the start is looked for in caches that differ in their counts only
    rcases cache.locate fa (StateSet.sorted (fa.closure fa.start)) with ⟨_ | index, located⟩
    · rfl
    · rfl

/-- Where a set is missing and there is no room for it, there is none with a past either. -/
theorem workOut_raise (source : Nat) (members : List StateId) (byte : UInt8) :
    SameOutcome (Raised past) ((cache.raise past).workOut fa source members byte)
      (cache.workOut fa source members byte) := by
  unfold workOut
  -- the states to which the byte leads are worked out from the automaton alone
  refine (SameOutcome.refl _).bind ?_
  rintro next _ rfl
  cases next with
  | nil => exact .ok rfl
  | cons first more =>
    dsimp only
    rw [locate_raise]
    rcases cache.locate fa (first :: more) with ⟨_ | target, located⟩
    · exact .ok rfl
    · exact .ok rfl

/-- A step takes the same move and counts one look-up more on top of the same past. -/
theorem step_raise (source : Nat) (byte : UInt8) :
    SameOutcome (Raised past) ((cache.raise past).step fa source byte)
      (cache.step fa source byte) := by
  have hhit : ({ cache.raise past with budget := (cache.raise past).budget.hit } : Cache α) =
      raise past { cache with budget := cache.budget.hit } :=
    congrArg (Cache.mk _) (Budget.hit_raise _ _)
  have hmiss : ({ cache.raise past with budget := (cache.raise past).budget.miss } : Cache α) =
      raise past { cache with budget := cache.budget.miss } :=
    congrArg (Cache.mk _) (Budget.miss_raise _ _)
  -- a look-up is counted before or after the past, which makes no difference to the sum
  unfold step
  rw [hhit, hmiss, raise_dfa]
  by_cases hbyte : InAlphabet byte
  · rw [if_neg (not_not.2 hbyte), if_neg (not_not.2 hbyte)]
    cases cache.dfa.subsets[source]? with
    | none => exact .fault _
    | some subset =>
      dsimp only
      rcases subset.moves.lookup byte with _ | _ | target
      · exact workOut_raise past _ source subset.members byte
      · exact .ok rfl
      · exact .ok rfl
  · rw [if_pos hbyte, if_pos hbyte]
    exact .ok rfl

/-- **A walk is the same** whatever was counted before. -/
theorem trail_raise (source : Nat) (bytes : Bytes) :
    SameOutcome (Raised past) (trail fa threshold (cache.raise past) source bytes)
      (trail fa threshold cache source bytes) := by
  induction bytes generalizing cache source with
  | nil => exact .ok rfl
  | cons byte rest ih =>
    -- after each step the one cache is still the other one raised, so the induction goes on
    rw [trail_cons, trail_cons]
    refine (cache.step_raise past source byte).bind ?_
    rintro _ ⟨move, stepped⟩ rfl
    cases move with
    | dead => exact .ok rfl
    -- from here on no cache is used
    | exhausted =>
      refine (SameOutcome.refl _).bind ?_
      rintro found _ rfl
      exact .ok rfl
    | «to» target =>
      refine (ih stepped target).bind ?_
      rintro _ ⟨found, last⟩ rfl
      exact .ok rfl

theorem traverse_raise (value : Bytes) (incoming : List α) :
    SameOutcome (Raised past) ((cache.raise past).traverse fa threshold value incoming)
      (cache.traverse fa threshold value incoming) := by
  unfold traverse
  rw [locateStart_raise]
  rcases cache.locateStart fa with ⟨_ | source, located⟩
  · refine (SameOutcome.refl _).bind ?_
    rintro met _ rfl
    exact .ok rfl
  · refine (located.trail_raise past source (symbols value)).bind ?_
    rintro _ ⟨met, last⟩ rfl
    exact .ok rfl

end Cache

/-! ### Contexts that have counted before -/

/-- The state of a cache told by a context that has counted `past` more than another one. -/
structure Stats.AheadOf (past : Counts) (stats plain : Stats) : Prop where
  caches : stats.caches = plain.caches
  states : stats.states = plain.states
  disabled : stats.disabled = plain.disabled
  creates : stats.creates = plain.creates + past.creates
  hits : stats.hits = plain.hits + past.hits
  misses : stats.misses = plain.misses + past.misses

/-- **Replies told apart by counts only**: the lists found are the same, and the counts of the first
one are ahead by `past`. -/
inductive Reply.AheadOf (past : Counts) : Reply α → Reply α → Prop
  | found (payloads : List α) : AheadOf past (.found payloads) (.found payloads)
  | stats {stats plain : Stats} : stats.AheadOf past plain → AheadOf past (.stats stats) (.stats plain)
  | cleared : AheadOf past .cleared .cleared

namespace Context

/-- What a context has counted. -/
def counts (ctx : Context α) : Counts := ⟨ctx.budget.creates, ctx.budget.hits, ctx.budget.misses⟩

/-- The context with `past` counted before. -/
def raise (past : Counts) (ctx : Context α) : Context α :=
  { ctx with budget := ctx.budget.raise past }

variable (past : Counts) (ctx : Context α)

@[simp] theorem raise_caches : (ctx.raise past).caches = ctx.caches := rfl

@[simp] theorem raise_budget : (ctx.raise past).budget = ctx.budget.raise past := rfl

theorem stats_raise : (ctx.raise past).stats.AheadOf past ctx.stats where
  caches := rfl
  states := rfl
  disabled := rfl
  creates := rfl
  hits := rfl
  misses := rfl

/-- Clearing leaves the counts as they are. -/
theorem clear_raise : (ctx.raise past).clear = ctx.clear.raise past := rfl

/-- **A cleared context is a new one raised by its counts.** -/
theorem clear_eq_raise {config : Config} (hconfig : ctx.config = config)
    (hcapacity : ctx.budget.capacity = config.capacity) :
    ctx.clear = (ofConfig config).raise ctx.counts := by
  subst hconfig
  unfold clear raise ofConfig Budget.reset Budget.raise Budget.ofCapacity counts
  -- cleared, the budget differs from a new one in what it has counted
  simp only [Nat.zero_add, hcapacity]

/-- What is given back is the same, and so is the fault where it would be too much. -/
theorem openCache_raise (snapshot : Snapshot α) :
    SameOutcome (fun raised plain => raised = plain.raise past)
      ((ctx.raise past).openCache snapshot) (ctx.openCache snapshot) := by
  unfold openCache
  rw [raise_caches, raise_budget]
  cases ctx.caches.lookup snapshot.lineage with
  | none => exact .ok rfl
  | some edition =>
    dsimp only
    split
    · exact .ok rfl
    · -- another edition is cached, and its sets are given back
      refine (ctx.budget.release_raise past edition.dfa.size).bind ?_
      rintro _ released rfl
      exact .ok rfl

variable [DecidableEq α]

/-- What comes with a context is the same, and the context has counted `past` before. -/
def Raised {β : Type} (past : Counts) (raised plain : β × Context α) : Prop :=
  raised = (plain.1, plain.2.raise past)

theorem traverseCached_raise (snapshot : Snapshot α) (value : Bytes) (incoming : List α) :
    SameOutcome (Raised past) ((ctx.raise past).traverseCached snapshot value incoming)
      (ctx.traverseCached snapshot value incoming) := by
  unfold Context.traverseCached
  rw [raise_budget, Budget.raise_disabled]
  by_cases hplain : (snapshot.automaton.deterministic || ctx.budget.disabled) = true
  · rw [if_pos hplain, if_pos hplain]
    refine (SameOutcome.refl _).bind ?_
    rintro found _ rfl
    exact .ok rfl
  · rw [if_neg hplain, if_neg hplain]
    -- opening, walking and closing, and each leaves the one context raised
    refine (ctx.openCache_raise past snapshot).bind ?_
    rintro _ cache rfl
    refine (cache.traverse_raise past value incoming).bind ?_
    rintro _ ⟨found, last⟩ rfl
    exact .ok rfl

theorem matchValue_raise (matcher : Matcher α) (value : Bytes) (incoming : List α) :
    SameOutcome (Raised past) (matcher.matchValue (ctx.raise past) value incoming)
      (matcher.matchValue ctx value incoming) := by
  unfold Matcher.matchValue
  dsimp only
  split
  · exact .ok rfl
  · exact ctx.traverseCached_raise past _ value _

/-- **A call is served alike** by a context that has counted before. -/
theorem serve_raise (call : Call α) :
    SameOutcome (fun raised plain => raised.1.AheadOf past plain.1 ∧ raised.2 = plain.2.raise past)
      ((ctx.raise past).serve call) (ctx.serve call) := by
  cases call with
  | traverse fa value incoming =>
    refine (SameOutcome.refl _).bind ?_
    rintro found _ rfl
    exact .ok ⟨.found found, rfl⟩
  | traverseCached snapshot value incoming =>
    refine (ctx.traverseCached_raise past snapshot value incoming).bind ?_
    rintro _ ⟨found, last⟩ rfl
    exact .ok ⟨.found found, rfl⟩
  | matchValue matcher value incoming =>
    refine (ctx.matchValue_raise past matcher value incoming).bind ?_
    rintro _ ⟨found, last⟩ rfl
    exact .ok ⟨.found found, rfl⟩
  | stats => exact .ok ⟨.stats (ctx.stats_raise past), rfl⟩
  | clear => exact .ok ⟨.cleared, ctx.clear_raise past⟩

/-- **Any number of calls** are served alike. -/
theorem serveAll_raise (calls : List (Call α)) :
    SameOutcome
      (fun raised plain => List.Forall₂ (Reply.AheadOf past) raised.1 plain.1 ∧
        raised.2 = plain.2.raise past)
      (serveAll serve (ctx.raise past) calls) (serveAll serve ctx calls) := by
  have hserve : ∀ (raised plain : Context α) (call : Call α), raised = plain.raise past →
      SameOutcome
        (fun raised plain => raised.1.AheadOf past plain.1 ∧ raised.2 = plain.2.raise past)
        (raised.serve call) (plain.serve call) := by
    rintro _ plain call rfl
    exact plain.serve_raise past call
  exact serveAll_relates hserve rfl calls

/-! ### What calls leave of the settings -/

/-- A context with the settings `config`, which is allowed to hold as many sets as they say. -/
def SetTo (config : Config) (ctx : Context α) : Prop :=
  ctx.config = config ∧ ∃ given, Accounts config given ctx

variable {config : Config} {ctx ctx' : Context α} {call : Call α} {reply : Reply α}

/-- No call changes the settings. -/
theorem SetTo.serve (h : SetTo config ctx) (hserve : ctx.serve call = .ok (reply, ctx')) :
    SetTo config ctx' := by
  obtain ⟨hconfig, given, haccounts⟩ := h
  rcases serve_cases hserve with rfl | ⟨snapshot, value, incoming, found, -, hwalk⟩ | ⟨-, rfl⟩
  · exact ⟨hconfig, given, haccounts⟩
  · -- a cached walk takes from the budget, but the settings stay
    refine ⟨?_, _, (haccounts.traverseCached hwalk).1⟩
    rcases traverseCached_cases hwalk with ⟨-, -, rfl⟩ | ⟨-, cache, last, -, -, rfl⟩
    · exact hconfig
    · exact hconfig
  · exact ⟨hconfig, _, haccounts.clear⟩

theorem setTo_of_serveAll {calls : List (Call α)} {replies : List (Reply α)}
    (h : serveAll Context.serve (ofConfig config) calls = .ok (replies, ctx)) : SetTo config ctx := by
  -- the settings are those of a new context, and no call changes them
  refine serveAll_keeps (fun _ _ _ _ _ hkept hcall => hkept.serve hcall) ?_ h
  exact ⟨rfl, 0, accounts_ofConfig config⟩

end Context

/-! ### Clearing -/

namespace BufferedContext

variable [DecidableEq α] {config : Config} {before : List (Call α)} {earlier : List (Reply α)}
  {ctx : BufferedContext α}

/-- The context has come about without buffers as well, and its settings are those it began with. -/
theorem setTo_of_serveAll
    (hbefore : serveAll serve (ofConfig config) before = .ok (earlier, ctx)) :
    Context.SetTo config ctx.context := by
  have halike := serveAll_alike (ofConfig config) before
  rw [hbefore] at halike
  obtain ⟨⟨_, plain⟩, hplain, -, hcontext⟩ := halike.exists_ok
  rw [hcontext]
  exact Context.setTo_of_serveAll hplain

/-- **A cleared context is as good as a new one.** Whatever a context has been asked for, whatever is
left in its buffers, and whether its caching is off: after it has been cleared, any calls come to the
same fault as in a new context with the same settings, or to replies that find the same lists and
tell the same state of the cache, all counts being ahead by what the context had counted when it was
cleared. -/
theorem clear_is_as_good_as_new
    (hbefore : serveAll serve (ofConfig config) before = .ok (earlier, ctx))
    (calls : List (Call α)) :
    SameOutcome
      (fun cleared fresh => List.Forall₂ (Reply.AheadOf ctx.context.counts) cleared.1 fresh.1)
      (serveAll serve ctx.clear calls) (serveAll serve (ofConfig config) calls) := by
  obtain ⟨hconfig, given, haccounts⟩ := setTo_of_serveAll hbefore
  have hclear : ctx.clear.context = (Context.ofConfig config).raise ctx.context.counts :=
    ctx.context.clear_eq_raise hconfig haccounts.capacity_eq
  -- from buffers to none, from there to a new context that has counted nothing, and to its buffers
  have hcleared := serveAll_alike ctx.clear calls
  have hraised := (Context.ofConfig config).serveAll_raise ctx.context.counts calls
  have hfresh := (serveAll_alike (ofConfig config) calls).symm
  rw [hclear] at hcleared
  refine ((hcleared.trans hraised).trans hfresh).imp ?_
  rintro ⟨replies, last⟩ ⟨replies', last'⟩ ⟨plain', ⟨plain, ⟨rfl, -⟩, hahead, -⟩, hreplies, -⟩
  exact hreplies ▸ hahead

/-- A context with room for one set that has walked `ba` through the automaton of `*a`: caching is
off, two look-ups are counted, and a state is left in the buffers. Cleared, it finds what a new
context finds, and tells one set created and two look-ups more. -/
theorem clear_is_as_good_as_new_exhausted :
    let star : Snapshot Nat := .first 0 (Glob.automaton [.star, .byte 97] 1)
    let config := Config.default.setCapacity 1
    let calls : List (Call Nat) := [.stats, .traverseCached star [97] [7], .stats]
    ∃ earlier ctx,
      serveAll serve (ofConfig config) [.traverseCached star [98, 97] []] = .ok (earlier, ctx) ∧
      ctx.context.counts = ⟨1, 0, 2⟩ ∧ ctx.context.budget.disabled = true ∧
      ctx.buffers.current = [0] ∧
      Prod.fst <$> serveAll serve (ofConfig config) calls =
        .ok [.stats ⟨0, 0, 0, 0, 0, false⟩, .found [7, 1], .stats ⟨1, 1, 1, 0, 1, true⟩] ∧
      SameOutcome (fun cleared fresh => List.Forall₂ (Reply.AheadOf ⟨1, 0, 2⟩) cleared.1 fresh.1)
        (serveAll serve ctx.clear calls) (serveAll serve (ofConfig config) calls) := by
  intro star config calls
  have hleft : (fun served => (served.2.context.counts, served.2.context.budget.disabled,
      served.2.buffers.current)) <$>
        serveAll serve (ofConfig config) [.traverseCached star [98, 97] []] =
      .ok (⟨1, 0, 2⟩, true, [0]) := by
    -- down to the lists that are sorted, by merging, which the kernel does not evaluate
    simp only [serveAll, serve, traverseCached, Cache.traverseIn, Cache.locateStart, symbols,
      List.cons_append, List.nil_append, Cache.trailIn, Cache.stepIn, Cache.workOutIn,
      Buffers.gather, StateSet.sorted_eq_insertionSort]
    decide +kernel
  have hfresh : Prod.fst <$> serveAll serve (ofConfig config) calls =
      .ok [.stats ⟨0, 0, 0, 0, 0, false⟩, .found [7, 1], .stats ⟨1, 1, 1, 0, 1, true⟩] := by
    -- down to the lists that are sorted, by merging, which the kernel does not evaluate
    simp only [calls, serveAll, serve, traverseCached, Cache.traverseIn, Cache.locateStart, symbols,
      List.cons_append, List.nil_append, Cache.trailIn, Cache.stepIn, Cache.workOutIn,
      Buffers.gather, StateSet.sorted_eq_insertionSort]
    decide +kernel
  obtain ⟨⟨earlier, ctx⟩, hbefore, heq⟩ := map_eq_ok_iff.1 hleft
  obtain ⟨hcounts, heq⟩ := Prod.mk.inj heq
  obtain ⟨hoff, hcurrent⟩ := Prod.mk.inj heq
  have hcleared := clear_is_as_good_as_new hbefore calls
  have hcounts : ctx.context.counts = ⟨1, 0, 2⟩ := hcounts
  rw [hcounts] at hcleared
  exact ⟨earlier, ctx, hbefore, hcounts, hoff, hcurrent, hfresh, hcleared⟩

end BufferedContext

end ByteMatch
