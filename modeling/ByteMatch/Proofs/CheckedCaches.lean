import ByteMatch.Cache.CheckedWalk
import ByteMatch.Proofs.CheckedWalks
import ByteMatch.Proofs.Transparency

/-!
# Checking every look-up makes no difference to a cached walk

In a context that has walked nothing but what was published, a walk through the cache that checks every
look-up comes out as the walk that does not, and leaves the same context behind
(`Context.Sound.checkedTraverseCached_eq`). What makes the numbers in a cache lead somewhere is what makes
them right: members of a kept set are states of the automaton because the set is closed
(`SubsetDfa.Exact.closedSet`), a number that was found or recorded is that of a set which is kept
(`Cache.locate_spec`, `Cache.step_spec`), and kept sets stay where they are (`Cache.Grows.kept`).

None of this holds of a cache that was filled by walks through another automaton; there the walk that
checks comes to a fault where the other one goes on.
-/

namespace ByteMatch

variable {α : Type} {fa : Automaton α} {members : List StateId} {byte : UInt8} {source : Nat}

/-! ### Kept sets -/

theorem Subset.checkedMove_eq (subset : Subset α) (hbyte : InAlphabet byte) :
    subset.checkedMove byte = .ok (subset.moves.lookup byte) := if_pos hbyte

namespace SubsetDfa

variable {dfa : SubsetDfa α}

/-- A set that is kept is found, and has the members and payloads that are read off the cache. -/
theorem Keeps.lookUp (h : dfa.Keeps source members) :
    ∃ subset, dfa.subsets[source]? = some subset ∧ dfa.lookUp source = .ok subset ∧
      subset.members = members ∧ subset.payloads = dfa.payloadsOf source := by
  obtain ⟨subset, hsubset, hmembers⟩ := h
  refine ⟨subset, hsubset, ?_, hmembers, ?_⟩
  · rw [SubsetDfa.lookUp, hsubset]
  · rw [payloadsOf, hsubset, Option.map_some, Option.getD_some]

theorem checkedKeep_eq [DecidableEq α] (dfa : SubsetDfa α)
    (hmembers : ∀ s ∈ members, s < fa.size) :
    dfa.checkedKeep fa members = .ok (dfa.keep fa members) := by
  have hpayloads : (members.flatMapM fun member => Node.payloads <$> fa.lookUp member) =
      .ok (fa.payloadsAll members) :=
    flatMapM_eq_ok fun s hs => Automaton.payloads_lookUp (hmembers s hs)
  rw [checkedKeep, hpayloads]
  rfl

theorem Keeps.checkedRecord_eq (h : dfa.Keeps source members) (hbyte : InAlphabet byte)
    (target : Option Nat) :
    dfa.checkedRecord source byte target = .ok (dfa.record source byte target) := by
  obtain ⟨subset, -, hlookUp, -⟩ := h.lookUp
  rw [checkedRecord, hlookUp]
  show (subset.checkedMove byte >>= fun _ => pure (dfa.record source byte target)) = _
  rw [subset.checkedMove_eq hbyte]
  rfl

end SubsetDfa

/-! ### Successors -/

namespace Automaton

private theorem closureBehind_of_none (tables : fa.TablesWellFormed) {s : StateId}
    (hs : s < fa.size) (hstep : fa.step s byte = none) : fa.closureBehind byte s = .ok [] := by
  rw [closureBehind, visit_eq tables hs, hstep]
  rfl

private theorem closureBehind_of_some (tables : fa.TablesWellFormed) {s next : StateId}
    (hs : s < fa.size) (hstep : fa.step s byte = some next) :
    fa.closureBehind byte s = fa.lookUpClosure next := by
  rw [closureBehind, visit_eq tables hs, hstep]
  rfl

/-- From states that are there, the closures of those to which the byte leads are looked up. -/
theorem flatMapM_closureBehind (tables : fa.TablesWellFormed)
    (hmembers : ∀ s ∈ members, s < fa.size) (byte : UInt8) :
    members.flatMapM (fa.closureBehind byte) =
      (fa.stepAll members byte).flatMapM fa.lookUpClosure := by
  induction members with
  | nil => rfl
  | cons s members ih =>
    -- a member is there, and so it is come through; where the byte leads is looked up next
    have hs := hmembers s List.mem_cons_self
    rw [List.flatMapM_cons, ih fun t ht => hmembers t (List.mem_cons_of_mem s ht)]
    cases hstep : fa.step s byte with
    | none =>
      rw [closureBehind_of_none tables hs hstep, stepAll_cons_of_none hstep]
      cases (fa.stepAll members byte).flatMapM fa.lookUpClosure with
      | error e => rfl
      | ok => rfl
    | some next =>
      rw [closureBehind_of_some tables hs hstep, stepAll_cons_of_some hstep, List.flatMapM_cons]

theorem checkedSuccessors_eq (tables : fa.TablesWellFormed)
    (hmembers : ∀ s ∈ members, s < fa.size) (byte : UInt8) :
    fa.checkedSuccessors members byte = fa.successors members byte := by
  rw [checkedSuccessors, flatMapM_closureBehind tables hmembers,
    flatMapM_eq_requireStates (fun _ => lookUpClosure_of_lt) (fun _ => lookUpClosure_of_not_lt),
    successors]
  cases fa.requireStates (fa.stepAll members byte) with
  | error e => rfl
  | ok => rfl

end Automaton

/-! ### Walks through a cache -/

namespace Cache

variable [DecidableEq α] {cache : Cache α}

theorem checkedLocate_eq (cache : Cache α) (hmembers : ∀ s ∈ members, s < fa.size) :
    cache.checkedLocate fa members = .ok (cache.locate fa members) := by
  -- a set that is kept is found as it is, so only keeping a new one looks anything up
  unfold checkedLocate locate
  cases cache.dfa.find? members with
  | some index => rfl
  | none =>
    cases cache.budget.reserve? with
    | none => rfl
    | some budget =>
      show (cache.dfa.checkedKeep fa members >>= _) = _
      rw [cache.dfa.checkedKeep_eq hmembers]
      rfl

theorem checkedLocateStart_eq (cache : Cache α) (fa : Automaton α) :
    cache.checkedLocateStart fa = .ok (cache.locateStart fa) := by
  unfold checkedLocateStart locateStart
  cases cache.dfa.start with
  | some index => rfl
  | none =>
    show (fa.lookUpClosure fa.start >>= _) = _
    -- the start is a state, and so its closure is there and lists states
    rw [Automaton.lookUpClosure_of_lt fa.start_lt]
    show (cache.checkedLocate fa (StateSet.sorted (fa.closure fa.start)) >>= _) = _
    rw [cache.checkedLocate_eq fa.closedSet_start.inside]
    rcases cache.locate fa (StateSet.sorted (fa.closure fa.start)) with ⟨_ | index, located⟩
    · rfl
    · rfl

omit [DecidableEq α] in
theorem checkedRecord_eq (hsource : cache.dfa.Keeps source members) (hbyte : InAlphabet byte)
    (target : Option Nat) :
    cache.checkedRecord source byte target = .ok (cache.record source byte target) := by
  rw [checkedRecord, hsource.checkedRecord_eq hbyte]
  rfl

/-- A move is worked out from the members of a kept set, and recorded where the set still is. -/
theorem checkedWorkOut_eq (tables : fa.TablesWellFormed) (h : SubsetDfa.Exact fa cache.dfa)
    (hsource : cache.dfa.Keeps source members) (hbyte : InAlphabet byte) :
    cache.checkedWorkOut fa source members byte = cache.workOut fa source members byte := by
  rw [checkedWorkOut, Automaton.checkedSuccessors_eq tables (h.closedSet hsource).inside, workOut]
  cases hnext : fa.successors members byte with
  | error e => rfl
  | ok next =>
    cases next with
    | nil =>
      show (cache.checkedRecord source byte none >>= _) = _
      rw [checkedRecord_eq hsource hbyte]
      rfl
    | cons s next =>
      have hclosed := Automaton.closedSet_of_successors hnext
      show (cache.checkedLocate fa (s :: next) >>= _) = _
      rw [cache.checkedLocate_eq hclosed.inside]
      dsimp only [bind, Except.bind]
      rcases hlocate : cache.locate fa (s :: next) with ⟨_ | target, located⟩
      · rfl
      · -- the set that was stepped from is still there when the move is recorded in it
        obtain ⟨hgrows, -⟩ := locate_spec h hclosed (List.cons_ne_nil s next) hlocate
        show (located.checkedRecord source byte (some target) >>= _) = _
        rw [checkedRecord_eq (hgrows.kept _ _ hsource) hbyte]
        rfl

/-- **A step from a kept set** comes out the same if every look-up is checked. -/
theorem checkedStep_eq (tables : fa.TablesWellFormed) (h : SubsetDfa.Exact fa cache.dfa)
    (hsource : cache.dfa.Keeps source members) (byte : UInt8) :
    cache.checkedStep fa source byte = cache.step fa source byte := by
  unfold checkedStep step
  split
  · rfl
  · next hbyte =>
    obtain ⟨subset, hsubset, hlookUp, rfl, -⟩ := hsource.lookUp
    rw [hlookUp, hsubset]
    show (subset.checkedMove byte >>= _) = _
    rw [subset.checkedMove_eq (not_not.1 hbyte)]
    dsimp only
    rcases subset.moves.lookup byte with _ | _ | target
    · -- the miss that is counted does not touch what is kept
      exact checkedWorkOut_eq tables h ⟨subset, hsubset, rfl⟩ (not_not.1 hbyte)
    · rfl
    · rfl

private theorem checkedTrail_cons (threshold : Nat) (cache : Cache α) (source : Nat) (byte : UInt8)
    (rest : Bytes) :
    checkedTrail fa threshold cache source (byte :: rest) = (do
      match ← cache.checkedStep fa source byte with
      | (.dead, cache) => return ([], cache)
      | (.exhausted, cache) =>
        let subset ← cache.dfa.lookUp source
        let found ← fa.checkedSetTrail threshold subset.members (byte :: rest)
        return (found, cache)
      | (.to target, cache) =>
        let subset ← cache.dfa.lookUp target
        let (found, cache) ← checkedTrail fa threshold cache target rest
        return (subset.payloads ++ found, cache)) := rfl

/-- **A walk from a kept set** comes out the same if every look-up is checked. -/
theorem checkedTrail_eq (tables : fa.TablesWellFormed) (threshold : Nat) (bytes : Bytes)
    (h : SubsetDfa.Exact fa cache.dfa) (hsource : cache.dfa.Keeps source members) :
    checkedTrail fa threshold cache source bytes = trail fa threshold cache source bytes := by
  induction bytes generalizing cache source members with
  | nil => rfl
  | cons byte rest ih =>
    rw [checkedTrail_cons, trail_cons, checkedStep_eq tables h hsource]
    cases hstep : cache.step fa source byte with
    | error e => rfl
    | ok moved =>
      obtain ⟨move, stepped⟩ := moved
      obtain ⟨hgrows, hmove⟩ := step_spec h hsource hstep
      cases move with
      | dead => rfl
      | exhausted =>
        -- the set is still kept, and its members are walked on from
        have hkept := hgrows.kept _ _ hsource
        obtain ⟨subset, -, hlookUp, rfl, -⟩ := hkept.lookUp
        show (stepped.dfa.lookUp source >>= _) = _
        rw [hlookUp]
        show (fa.checkedSetTrail threshold subset.members (byte :: rest) >>= _) =
          (fa.setTrail threshold (stepped.dfa.membersOf source) (byte :: rest) >>= _)
        rw [Automaton.checkedSetTrail_eq tables, hkept.membersOf_eq,
          Automaton.requireStates_eq_ok_iff.2 (hgrows.exact.closedSet hkept).inside]
        rfl
      | «to» target =>
        rcases hmove with ⟨-, hdead⟩ | ⟨next, -, htarget⟩
        · contradiction
        · obtain ⟨subset, -, hlookUp, -, hpayloads⟩ := SubsetDfa.Keeps.lookUp htarget
          show (stepped.dfa.lookUp target >>= _) = _
          rw [hlookUp]
          show (checkedTrail fa threshold stepped target rest >>= _) = _
          rw [ih hgrows.exact htarget, hpayloads]
          rfl

/-- **A walk through an exact cache** comes out the same if every look-up is checked. -/
theorem checkedTraverse_eq (tables : fa.TablesWellFormed) (h : SubsetDfa.Exact fa cache.dfa)
    (threshold : Nat) (value : Bytes) (incoming : List α) :
    cache.checkedTraverse fa threshold value incoming =
      cache.traverse fa threshold value incoming := by
  unfold checkedTraverse traverse
  rw [checkedLocateStart_eq]
  rcases hlocate : cache.locateStart fa with ⟨_ | source, located⟩
  · -- not even the start fits into the budget, so the walk begins without a cache
    show (fa.checkedSetTrail threshold [fa.start] (symbols value) >>= _) = _
    rw [Automaton.checkedSetTrail_eq tables, Automaton.requireStates_cons_of_lt fa.start_lt]
    rfl
  · obtain ⟨hgrows, hkeeps⟩ := locateStart_spec h hlocate
    have hsource := hkeeps source rfl
    obtain ⟨subset, -, hlookUp, -, hpayloads⟩ := hsource.lookUp
    show (located.dfa.lookUp source >>= _) = _
    rw [hlookUp]
    show (checkedTrail fa threshold located source (symbols value) >>= _) = _
    rw [checkedTrail_eq tables threshold (symbols value) hgrows.exact hsource, hpayloads]

end Cache

/-! ### Contexts -/

namespace Context

variable [DecidableEq α] {published : Publications α} {ctx : Context α} {snapshot : Snapshot α}

omit [DecidableEq α] in
/-- What is opened is what is cached for the edition to be walked, or nothing. -/
theorem openEdition_eq (ctx : Context α) (snapshot : Snapshot α) :
    ctx.openEdition snapshot =
      (fun cache => (⟨snapshot.id, cache.dfa⟩, cache.budget)) <$> ctx.openCache snapshot := by
  unfold openEdition openCache
  cases ctx.caches.lookup snapshot.lineage with
  | none => exact if_pos rfl
  | some edition =>
    obtain ⟨id, dfa⟩ := edition
    -- another edition is dropped, and so the one walked is always the one opened
    by_cases hid : id = snapshot.id
    · subst hid
      rw [Option.getD_some, if_pos rfl]
      dsimp only
      rw [if_pos rfl]
      rfl
    · dsimp only [Option.getD_some]
      rw [if_neg hid, if_neg hid]
      cases ctx.budget.release dfa.size with
      | error e => rfl
      | ok budget => rfl

/-- **A cached walk of what was published** comes out the same if every look-up is checked, and leaves
the same context behind. -/
theorem Sound.checkedTraverseCached_eq (h : Sound published ctx)
    (hsnapshot : snapshot.PublishedIn published) (tables : snapshot.automaton.TablesWellFormed)
    (value : Bytes) (incoming : List α) :
    ctx.checkedTraverseCached snapshot value incoming =
      ctx.traverseCached snapshot value incoming := by
  unfold checkedTraverseCached Context.traverseCached
  split
  · -- the cache is not walked
    rw [checkedTraverse, Automaton.checkedTraverse_eq tables]
    rfl
  · obtain ⟨cache, hopen, hexact, -⟩ := h.openCache hsnapshot
    rw [openEdition_eq, hopen]
    show (CachedEdition.checkedTraverse ⟨snapshot.id, cache.dfa⟩ cache.budget snapshot
      ctx.config.threshold value incoming >>= _) = _
    rw [CachedEdition.checkedTraverse, if_pos rfl, Cache.checkedTraverse_eq tables hexact]
    rfl

/-- The automaton of `*a` walked through a cache that another automaton has filled, with a set of which
it does not have the state: a walk goes on from there and finds nothing, and one that checks faults. -/
example :
    let snapshot : Snapshot Nat := .first 0 (Glob.automaton [.star, .byte 97] 1)
    let left : SubsetDfa Nat := ⟨#[⟨[9], [], []⟩], [([9], 0)], some 0⟩
    let ctx : Context Nat := ⟨Config.default, [(0, ⟨0, left⟩)], Budget.ofCapacity 100⟩
    Prod.fst <$> ctx.traverseCached snapshot [97] [] = .ok [] ∧
      Prod.fst <$> ctx.checkedTraverseCached snapshot [97] [] = .error (.stepOutside 9) := by
  decide +kernel

end Context

end ByteMatch
