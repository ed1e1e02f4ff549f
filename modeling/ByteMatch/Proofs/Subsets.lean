import ByteMatch.Cache.Walk
import ByteMatch.Proofs.Traversal

/-!
# Kept sets of states are right

A cache keeps closed sets of states and the moves between them, filled in piece by piece by walks
that may each have been cut short. `SubsetDfa.Exact fa dfa` is what holds of it all the while: every
kept set is closed, has the payloads of its members, and every move that it has recorded is the one
which `fa` makes. With this goes `SubsetDfa.Indexed dfa`: the index has the numbers of just the sets
that are kept, so none is kept twice.

A closed set stands for itself in a walk: what is collected from it is what its members hold and what
is collected from its successors (`Automaton.ClosedSet.collects_cons_iff`). So a walk from kept set
to kept set collects what the walk through unexpanded states collects, though neither of the two
comes through the other's states.
-/

namespace ByteMatch

variable {α : Type}

namespace Automaton

variable {fa : Automaton α} {states sources members next : List StateId} {byte : UInt8} {p : α}

/-! ### Closed sets of states -/

/-- The members are the states to which epsilon edges lead from the sources. -/
def IsClosure (fa : Automaton α) (sources members : List StateId) : Prop :=
  ∀ t, t ∈ members ↔ ∃ s ∈ sources, fa.Path s [] t

theorem isClosure_sorted (hsources : ∀ s ∈ sources, s < fa.size) :
    fa.IsClosure sources (StateSet.sorted (fa.closureAll sources)) := by
  intro t
  rw [StateSet.mem_sorted, mem_closureAll_iff hsources]

/-- Only what leads nowhere has an empty closure. -/
theorem IsClosure.eq_nil (h : fa.IsClosure sources []) : sources = [] := by
  cases sources with
  | nil => rfl
  | cons s rest => exact absurd ((h s).2 ⟨s, List.mem_cons_self, .refl s⟩) List.not_mem_nil

/-- States in ascending order, all of the automaton, that epsilon edges do not leave. -/
structure ClosedSet (fa : Automaton α) (members : List StateId) : Prop where
  ascending : members.Pairwise (· < ·)
  inside : ∀ s ∈ members, s < fa.size
  closed : ∀ s ∈ members, ∀ t, fa.Path s [] t → t ∈ members

/-- Epsilon edges do not leave the automaton, wherever its steps may lead. -/
theorem Path.lt_size_of_nil {s t : StateId} (h : fa.Path s [] t) (hs : s < fa.size) :
    t < fa.size := by
  rw [Path.nil_iff] at h
  induction h with
  | refl => exact hs
  | tail _ he _ => exact fa.toGraph.epsilonTargets_lt he

/-- The closures of states make a closed set. -/
theorem closedSet_sorted (hstates : ∀ s ∈ states, s < fa.size) :
    fa.ClosedSet (StateSet.sorted (fa.closureAll states)) where
  ascending := StateSet.ascending_sorted _
  inside t ht := by
    rw [StateSet.mem_sorted, mem_closureAll_iff hstates] at ht
    obtain ⟨s, hs, hpath⟩ := ht
    exact hpath.lt_size_of_nil (hstates s hs)
  closed t ht u hu := by
    rw [StateSet.mem_sorted, mem_closureAll_iff hstates] at ht ⊢
    obtain ⟨s, hs, hpath⟩ := ht
    exact ⟨s, hs, hpath.trans hu⟩

theorem closureAll_start (fa : Automaton α) : fa.closureAll [fa.start] = fa.closure fa.start :=
  List.flatMap_singleton _ _

/-- The set in which every walk begins. -/
theorem closedSet_start (fa : Automaton α) :
    fa.ClosedSet (StateSet.sorted (fa.closure fa.start)) := by
  rw [← fa.closureAll_start]
  exact closedSet_sorted fa.lt_size_of_mem_start

theorem start_ne_nil (fa : Automaton α) : StateSet.sorted (fa.closure fa.start) ≠ [] := by
  have hmem : fa.start ∈ StateSet.sorted (fa.closure fa.start) := by
    rw [StateSet.mem_sorted, fa.mem_closure_iff fa.start_lt]
    exact .refl _
  exact List.ne_nil_of_mem hmem

/-- What is collected from states is collected from their closures. -/
theorem collects_closureAll_iff (hstates : ∀ s ∈ states, s < fa.size) {bytes : Bytes} :
    fa.Collects (StateSet.sorted (fa.closureAll states)) bytes p ↔ fa.Collects states bytes p := by
  refine ⟨?_, ?_⟩
  · -- the path into the closure is put in front of the path from there
    rintro ⟨read, hread, m, hm, t, hpath, hp⟩
    rw [StateSet.mem_sorted, mem_closureAll_iff hstates] at hm
    obtain ⟨s, hs, hsm⟩ := hm
    exact ⟨read, hread, s, hs, t, hsm.trans hpath, hp⟩
  · rintro ⟨read, hread, s, hs, t, hpath, hp⟩
    have hmem : s ∈ StateSet.sorted (fa.closureAll states) := by
      rw [StateSet.mem_sorted, mem_closureAll_iff hstates]
      exact ⟨s, hs, .refl s⟩
    exact ⟨read, hread, s, hmem, t, hpath, hp⟩

/-! ### Successors -/

/-- What there is to know about successors that were worked out. -/
theorem successors_eq_ok_iff :
    fa.successors members byte = .ok next ↔
      (∀ n ∈ fa.stepAll members byte, n < fa.size) ∧
        next = StateSet.sorted (fa.closureAll (fa.stepAll members byte)) := by
  rw [successors, bind_eq_ok_iff]
  refine ⟨?_, ?_⟩
  · rintro ⟨_, hrequire, h⟩
    exact ⟨requireStates_eq_ok_iff.1 hrequire, (Except.ok.inj h).symm⟩
  · rintro ⟨hrequire, rfl⟩
    exact ⟨(), requireStates_eq_ok_iff.2 hrequire, rfl⟩

/-- Successors can be worked out if steps stay inside. -/
theorem successors_isOk (inside : fa.StepsInside) (members : List StateId) (byte : UInt8) :
    ∃ next, fa.successors members byte = .ok next := by
  refine ⟨_, successors_eq_ok_iff.2 ⟨fun n hn => ?_, rfl⟩⟩
  obtain ⟨s, -, hstep⟩ := mem_stepAll_iff.1 hn
  exact (inside _ _ _ hstep).2

/-- The successors are the closure of where the byte leads. -/
theorem isClosure_of_successors (h : fa.successors members byte = .ok next) :
    fa.IsClosure (fa.stepAll members byte) next := by
  obtain ⟨htargets, rfl⟩ := successors_eq_ok_iff.1 h
  exact isClosure_sorted htargets

theorem closedSet_of_successors (h : fa.successors members byte = .ok next) :
    fa.ClosedSet next := by
  obtain ⟨htargets, rfl⟩ := successors_eq_ok_iff.1 h
  exact closedSet_sorted htargets

namespace ClosedSet

/-- A closed set holds the payloads of its members and no others. -/
theorem holds_iff (h : fa.ClosedSet members) :
    fa.Holds members p ↔ p ∈ fa.payloadsAll members := by
  rw [mem_payloadsAll_iff]
  refine ⟨?_, ?_⟩
  · rintro ⟨s, hs, t, hpath, hp⟩
    exact ⟨t, h.closed s hs t hpath, hp⟩
  · rintro ⟨t, ht, hp⟩
    exact ⟨t, ht, t, .refl t, hp⟩

/-- **One byte of a walk through closed sets.** -/
theorem collects_cons_iff (h : fa.ClosedSet members)
    (hnext : fa.successors members byte = .ok next) {rest : Bytes} :
    fa.Collects members (byte :: rest) p ↔
      p ∈ fa.payloadsAll members ∨ fa.Collects next rest p := by
  obtain ⟨htargets, rfl⟩ := successors_eq_ok_iff.1 hnext
  rw [collects_closureAll_iff htargets, ← h.holds_iff]
  refine Automaton.collects_cons_iff fun n => ?_
  rw [mem_stepAll_iff]
  refine ⟨?_, ?_⟩
  · rintro ⟨s, hs, hstep⟩
    exact ⟨s, hs, s, .refl s, hstep⟩
  · -- the state before the byte is a member, the set being closed
    rintro ⟨s, hs, m, hm, hstep⟩
    exact ⟨m, h.closed s hs m hm, hstep⟩

/-- A byte that is not read leads a closed set nowhere. -/
theorem collects_cons_iff_of_not_inAlphabet (h : fa.ClosedSet members) (inside : fa.StepsInside)
    (hbyte : ¬ InAlphabet byte) {rest : Bytes} :
    fa.Collects members (byte :: rest) p ↔ p ∈ fa.payloadsAll members := by
  -- no step on such a byte stays inside, so there is none
  have hnext : ∀ n, n ∈ ([] : List StateId) ↔
      ∃ s ∈ members, ∃ m, fa.Path s [] m ∧ fa.step m byte = some n := by
    intro n
    refine iff_of_false List.not_mem_nil ?_
    rintro ⟨s, -, m, -, hstep⟩
    exact hbyte (inside _ _ _ hstep).1
  rw [Automaton.collects_cons_iff hnext, h.holds_iff]
  simp [Collects]

end ClosedSet

end Automaton

/-! ### What is kept -/

namespace SubsetDfa

variable {dfa dfa' : SubsetDfa α} {i : Nat} {members : List StateId}

/-- The set kept under the number `i` has these members. -/
def Keeps (dfa : SubsetDfa α) (i : Nat) (members : List StateId) : Prop :=
  ∃ subset, dfa.subsets[i]? = some subset ∧ subset.members = members

/-- A target that was recorded stands for a set that is kept, or for the empty set, which is not. -/
def StandsFor (dfa : SubsetDfa α) : Option Nat → List StateId → Prop
  | none, members => members = []
  | some i, members => members ≠ [] ∧ dfa.Keeps i members

/-- Whatever is kept in `dfa` is still kept in `dfa'`, under the same number. -/
def Extends (dfa dfa' : SubsetDfa α) : Prop :=
  ∀ i members, dfa.Keeps i members → dfa'.Keeps i members

theorem Extends.refl (dfa : SubsetDfa α) : dfa.Extends dfa := fun _ _ h => h

theorem Extends.trans {dfa'' : SubsetDfa α} (h : dfa.Extends dfa') (h' : dfa'.Extends dfa'') :
    dfa.Extends dfa'' := fun i members hi => h' i members (h i members hi)

theorem Extends.standsFor (h : dfa.Extends dfa') {target : Option Nat}
    (htarget : dfa.StandsFor target members) : dfa'.StandsFor target members := by
  cases target with
  | none => exact htarget
  | some i => exact ⟨htarget.1, h i members htarget.2⟩

theorem Keeps.membersOf_eq (h : dfa.Keeps i members) : dfa.membersOf i = members := by
  obtain ⟨subset, hsubset, rfl⟩ := h
  simp [membersOf, hsubset]

theorem Keeps.unique {members' : List StateId} (h : dfa.Keeps i members)
    (h' : dfa.Keeps i members') : members = members' := h.membersOf_eq.symm.trans h'.membersOf_eq

/-- **The index is right**: a set is found under the number under which it is kept, and found only if
it is kept. -/
def Indexed (dfa : SubsetDfa α) : Prop :=
  ∀ i members, dfa.find? members = some i ↔ dfa.Keeps i members

theorem indexed_empty : (SubsetDfa.empty : SubsetDfa α).Indexed := by
  intro i members
  refine iff_of_false nofun ?_
  rintro ⟨subset, hsubset, -⟩
  simp [empty] at hsubset

/-- No set is kept twice, there being one number in the index. -/
theorem Indexed.unique (h : dfa.Indexed) {j : Nat} (hi : dfa.Keeps i members)
    (hj : dfa.Keeps j members) : i = j := by
  have hfind := (h i members).2 hi
  rw [(h j members).2 hj] at hfind
  exact (Option.some.inj hfind).symm

/-- A set that is not found is not kept. -/
theorem Indexed.not_keeps (h : dfa.Indexed) (hfind : dfa.find? members = none) (i : Nat) :
    ¬ dfa.Keeps i members := by
  intro hi
  have hfound := (h i members).2 hi
  rw [hfind] at hfound
  contradiction

theorem getElem?_record (dfa : SubsetDfa α) (source : Nat) (byte : UInt8) (target : Option Nat)
    (i : Nat) :
    (dfa.record source byte target).subsets[i]? =
      if i = source then
        dfa.subsets[i]?.map fun s => { s with moves := (byte, target) :: s.moves }
      else dfa.subsets[i]? := by
  rw [record, Array.getElem?_modify]
  by_cases hi : i = source
  · rw [if_pos hi.symm, if_pos hi]
  · rw [if_neg (Ne.symm hi), if_neg hi]

theorem keeps_record_iff {source : Nat} {byte : UInt8} {target : Option Nat} :
    (dfa.record source byte target).Keeps i members ↔ dfa.Keeps i members := by
  unfold Keeps
  rw [getElem?_record]
  -- the moves change, the members do not
  by_cases hi : i = source
  · rw [if_pos hi]
    cases dfa.subsets[i]? with
    | none => simp
    | some subset => simp
  · rw [if_neg hi]

/-- The index is about members, which moves do not change. -/
theorem Indexed.record (h : dfa.Indexed) (source : Nat) (byte : UInt8) (target : Option Nat) :
    (dfa.record source byte target).Indexed := by
  intro i members
  rw [keeps_record_iff]
  exact h i members

theorem extends_record (dfa : SubsetDfa α) (source : Nat) (byte : UInt8) (target : Option Nat) :
    dfa.Extends (dfa.record source byte target) := fun _ _ h => keeps_record_iff.2 h

/-- **Recorded knowledge about a set.** The set is closed and not empty, its payloads are those of its
members, and each recorded move leads to the set of its successors. -/
structure SubsetExact [DecidableEq α] (fa : Automaton α) (dfa : SubsetDfa α)
    (subset : Subset α) : Prop where
  ne_nil : subset.members ≠ []
  closedSet : fa.ClosedSet subset.members
  payloads_eq : subset.payloads = (fa.payloadsAll subset.members).eraseDups
  move : ∀ byte target, subset.moves.lookup byte = some target →
    ∃ next, fa.successors subset.members byte = .ok next ∧ dfa.StandsFor target next

/-- **What is kept for `fa` is right.** -/
structure Exact [DecidableEq α] (fa : Automaton α) (dfa : SubsetDfa α) : Prop where
  subset : ∀ (i : Nat) (subset : Subset α), dfa.subsets[i]? = some subset →
    SubsetExact fa dfa subset
  indexed : dfa.Indexed
  start : ∀ i, dfa.start = some i → dfa.Keeps i (StateSet.sorted (fa.closure fa.start))

variable [DecidableEq α] {fa : Automaton α}

theorem exact_empty (fa : Automaton α) : Exact fa SubsetDfa.empty where
  subset i subset h := by simp [empty] at h
  indexed := indexed_empty
  start i h := by simp [empty] at h

/-- A kept set is closed. -/
theorem Exact.closedSet (h : Exact fa dfa) (hi : dfa.Keeps i members) : fa.ClosedSet members := by
  obtain ⟨subset, hsubset, rfl⟩ := hi
  exact (h.subset i subset hsubset).closedSet

theorem Exact.ne_nil (h : Exact fa dfa) (hi : dfa.Keeps i members) : members ≠ [] := by
  obtain ⟨subset, hsubset, rfl⟩ := hi
  exact (h.subset i subset hsubset).ne_nil

/-- The payloads of a kept set are those of its members, each once. -/
theorem Exact.payloadsOf_eq (h : Exact fa dfa) (hi : dfa.Keeps i members) :
    dfa.payloadsOf i = (fa.payloadsAll members).eraseDups := by
  obtain ⟨subset, hsubset, rfl⟩ := hi
  rw [payloadsOf, hsubset, Option.map_some, Option.getD_some,
    (h.subset i subset hsubset).payloads_eq]

theorem Exact.mem_payloadsOf_iff (h : Exact fa dfa) (hi : dfa.Keeps i members) {p : α} :
    p ∈ dfa.payloadsOf i ↔ p ∈ fa.payloadsAll members := by
  rw [h.payloadsOf_eq hi, List.mem_eraseDups]

theorem SubsetExact.extend {subset : Subset α} (h : SubsetExact fa dfa subset)
    (hextends : dfa.Extends dfa') : SubsetExact fa dfa' subset where
  ne_nil := h.ne_nil
  closedSet := h.closedSet
  payloads_eq := h.payloads_eq
  move byte target hmove := by
    obtain ⟨next, hnext, htarget⟩ := h.move byte target hmove
    exact ⟨next, hnext, hextends.standsFor htarget⟩

/-- The number of the start may be noted once its set is kept. -/
theorem Exact.setStart (h : Exact fa dfa)
    (hi : dfa.Keeps i (StateSet.sorted (fa.closure fa.start))) :
    Exact fa { dfa with start := some i } where
  subset j subset hsubset := (h.subset j subset hsubset).extend fun _ _ hkeeps => hkeeps
  indexed := h.indexed
  start j hj := by
    obtain rfl := Option.some.inj hj
    exact hi

/-! ### Keeping another set -/

theorem getElem?_keep (dfa : SubsetDfa α) (fa : Automaton α) (members : List StateId) (i : Nat) :
    (dfa.keep fa members).subsets[i]? =
      if i = dfa.size then some ⟨members, (fa.payloadsAll members).eraseDups, []⟩
      else dfa.subsets[i]? := Array.getElem?_push

theorem keeps_keep_iff {fa : Automaton α} {members' : List StateId} :
    (dfa.keep fa members).Keeps i members' ↔
      i = dfa.size ∧ members = members' ∨ dfa.Keeps i members' := by
  unfold Keeps
  rw [getElem?_keep]
  by_cases hi : i = dfa.size
  · have hnone : dfa.subsets[i]? = none := by simp [hi, size]
    simp [hi ▸ hnone, hi]
  · simp [hi]

theorem extends_keep (dfa : SubsetDfa α) (fa : Automaton α) (members : List StateId) :
    dfa.Extends (dfa.keep fa members) := fun _ _ h => keeps_keep_iff.2 (.inr h)

/-- A set that was not found is found under the next number once it is kept. -/
theorem Indexed.keep (h : dfa.Indexed) (hfind : dfa.find? members = none) (fa : Automaton α) :
    (dfa.keep fa members).Indexed := by
  intro i members'
  rw [keeps_keep_iff]
  show ((members, dfa.size) :: dfa.index).lookup members' = some i ↔ _
  rw [List.lookup_cons]
  by_cases hmembers : members' = members
  · -- the entry in front is the only one with these members
    subst hmembers
    have hfresh := h.not_keeps hfind i
    simp [hfresh, eq_comm]
  · have hne : (members' == members) = false := beq_eq_false_iff_ne.2 hmembers
    rw [hne]
    simp only [Ne.symm hmembers, and_false, false_or]
    exact h i members'

theorem Exact.keep (h : Exact fa dfa) (hclosed : fa.ClosedSet members) (hne : members ≠ [])
    (hfind : dfa.find? members = none) : Exact fa (dfa.keep fa members) where
  subset i subset hsubset := by
    rw [getElem?_keep] at hsubset
    split at hsubset
    · -- the new set has no moves yet
      obtain rfl := Option.some.inj hsubset
      exact ⟨hne, hclosed, rfl, by simp⟩
    · -- whatever was kept is still kept, so what was known holds on
      exact (h.subset i subset hsubset).extend (extends_keep dfa fa members)
  indexed := h.indexed.keep hfind fa
  start i hi := extends_keep dfa fa members i _ (h.start i hi)

/-! ### Recording a move -/

theorem Exact.record (h : Exact fa dfa) {source : Nat} {byte : UInt8} {target : Option Nat}
    {next : List StateId} (hsource : dfa.Keeps source members)
    (hnext : fa.successors members byte = .ok next) (htarget : dfa.StandsFor target next) :
    Exact fa (dfa.record source byte target) where
  subset i subset hsubset := by
    have hextends := extends_record dfa source byte target
    rw [getElem?_record] at hsubset
    split at hsubset
    · next hi =>
      obtain ⟨old, hold, rfl⟩ := Option.map_eq_some_iff.1 hsubset
      have hexact := h.subset i old hold
      refine ⟨hexact.ne_nil, hexact.closedSet, hexact.payloads_eq, fun byte' target' hmove => ?_⟩
      rw [List.lookup_cons] at hmove
      split at hmove
      · -- the move just recorded
        next heq =>
        obtain rfl : byte' = byte := by simpa using heq
        obtain rfl := Option.some.inj hmove
        -- the set at `source` has one list of members
        have hmembers : old.members = members :=
          Keeps.unique (i := source) ⟨old, hi ▸ hold, rfl⟩ hsource
        exact ⟨next, by rw [← hnext, ← hmembers], hextends.standsFor htarget⟩
      · -- a move that was known before
        exact (hexact.extend hextends).move byte' target' hmove
    · exact (h.subset i subset hsubset).extend hextends
  indexed := h.indexed.record source byte target
  start i hi := keeps_record_iff.2 (h.start i hi)

end SubsetDfa

end ByteMatch
