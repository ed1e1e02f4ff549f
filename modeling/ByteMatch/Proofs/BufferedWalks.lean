import Mathlib.Data.List.Induction
import ByteMatch.Proofs.Serving

/-!
# What is left in the buffers does not show

A walk in buffers comes out as the walk that keeps nothing, whatever the buffers hold when it begins.
The two are compared as computations (`SameOutcome`), each walk by one lemma, in the order in which
the walks are made of each other:

* `Buffers.walkStates_alike`, `Buffers.walkSets_alike`: the payloads that a walk adds are those that
  it finds without buffers;
* `Cache.stepIn_alike`, `Cache.trailIn_alike`: the cache is left the same as well;
* `BufferedContext.serve_alike`, `BufferedContext.serveAll_alike`: so a context with buffers serves
  calls as the context alone does.
-/

namespace ByteMatch

variable {α : Type} [DecidableEq α]

/-! ### Collecting payloads -/

namespace PayloadSet

private theorem add_append (set : PayloadSet α) (xs ys : List α) :
    (set.add xs).add ys = set.add (xs ++ ys) := List.foldl_append.symm

/-- What has been added to a set with nothing in it is handed out once each, and recognised. -/
theorem add_empty (xs : List α) :
    (empty.add xs).items = xs.eraseDups ∧ ∀ p, p ∈ (empty.add xs).seen ↔ p ∈ xs := by
  -- the last payload is the one for which there is something to decide
  induction xs using List.reverseRecOn with
  | nil => exact ⟨rfl, fun p => Iff.rfl⟩
  | append_singleton xs x ih =>
    obtain ⟨hitems, hseen⟩ := ih
    have hlast : empty.add (xs ++ [x]) = (empty.add xs).insert x := (add_append empty xs [x]).symm
    rw [hlast, insert, List.eraseDups_append]
    by_cases hx : x ∈ xs
    · -- seen before, so it is not put behind the others
      rw [if_pos ((hseen x).2 hx)]
      have hnone : [x].removeAll xs = [] := by simp [List.removeAll, hx]
      refine ⟨?_, fun p => ?_⟩
      · rw [hitems, hnone, List.eraseDups_nil, List.append_nil]
      · rw [hseen, List.mem_append, List.mem_singleton]
        exact ⟨.inl, fun h => h.elim id fun heq => heq ▸ hx⟩
    · rw [if_neg fun h => hx ((hseen x).1 h)]
      have hnew : [x].removeAll xs = [x] := by simp [List.removeAll, hx]
      refine ⟨?_, fun p => ?_⟩
      · rw [hitems, hnew]
        rfl
      · rw [List.mem_cons, hseen, List.mem_append, List.mem_singleton, or_comm]

end PayloadSet

/-! ### Walks without the cache -/

namespace Buffers

variable {fa : Automaton α} {threshold : Nat}

/-- What comes in and what is found afterwards is handed out as it is collected without buffers. -/
theorem take_of_add {incoming found : List α} {prepared walked : Buffers α}
    (hprepared : prepared.payloads = PayloadSet.empty.add incoming)
    (hwalked : walked.payloads = prepared.payloads.add found) :
    walked.take.1 = collect incoming found := by
  show walked.payloads.items = (incoming ++ found).eraseDups
  rw [hwalked, hprepared, PayloadSet.add_append]
  exact (PayloadSet.add_empty _).1

private theorem foldl_add (buffers : Buffers α) (members : List StateId) :
    members.foldl (fun b s => b.add (fa.payloads s)) buffers =
      buffers.add (fa.payloadsAll members) := by
  induction members generalizing buffers with
  | nil => rfl
  | cons state members ih =>
    rw [List.foldl_cons, ih, add, add, add, PayloadSet.add_append]
    rfl

/-- Coming through states adds their payloads and puts down where the byte leads from them. -/
theorem foldl_visit (buffers : Buffers α) (members : List StateId) (byte : UInt8) :
    members.foldl (visit fa byte) buffers =
      { buffers with
        next := buffers.next ++ fa.stepAll members byte
        payloads := buffers.payloads.add (fa.payloadsAll members) } := by
  induction members generalizing buffers with
  | nil =>
    show buffers = { buffers with next := buffers.next ++ [] }
    rw [List.append_nil]
  | cons state members ih =>
    -- the payloads of the first state go in before those of the others
    have hpayloads : buffers.payloads.add (fa.payloadsAll (state :: members)) =
        (buffers.payloads.add (fa.payloads state)).add (fa.payloadsAll members) :=
      (PayloadSet.add_append _ _ _).symm
    rw [List.foldl_cons, ih, hpayloads]
    unfold visit
    cases hstep : fa.step state byte with
    | none =>
      rw [Automaton.stepAll_cons_of_none hstep]
      rfl
    | some next =>
      rw [Automaton.stepAll_cons_of_some hstep, List.append_cons]
      rfl

/-- **A walk from state to state** adds what it finds without buffers. -/
theorem walkStates_alike (buffers : Buffers α) (state : StateId) (bytes : Bytes) :
    SameOutcome (fun walked found => walked.payloads = buffers.payloads.add found)
      ((buffers.add (fa.payloads state)).walkStates fa state bytes) (fa.trail state bytes) := by
  induction bytes generalizing buffers state with
  | nil => exact .ok rfl
  | cons byte rest ih =>
    unfold walkStates Automaton.trail
    cases fa.step state byte with
    | none => exact .ok rfl
    | some next =>
      apply (SameOutcome.refl _).bind
      intro _ _ _
      -- the payloads of the state are in the buffers when the walk goes on from the next one
      apply (ih _ next).bind_right
      intro walked found h
      refine .ok (h.trans ?_)
      exact PayloadSet.add_append _ _ _

/-- A walk that is in no state is at its end. -/
theorem walkSets_of_nil {buffers : Buffers α} (h : buffers.current = []) (bytes : Bytes) :
    buffers.walkSets fa threshold bytes = .ok buffers := by
  cases bytes with
  | nil => rw [walkSets, h]; rfl
  | cons byte rest => rw [walkSets, h]; rfl

/-- One byte of a walk, the states being visited all at once. -/
theorem walkSets_cons {buffers : Buffers α} (h : buffers.current ≠ []) (byte : UInt8)
    (rest : Bytes) :
    let members := fa.closureAll buffers.current
    let next := StateSet.distinct threshold (fa.stepAll members byte)
    buffers.walkSets fa threshold (byte :: rest) = (do
      fa.requireStates next
      walkSets fa threshold
        ⟨next, buffers.current, buffers.payloads.add (fa.payloadsAll members)⟩ rest) := by
  intro members next
  rw [walkSets, if_neg (by simpa using h), ← List.foldl_flatMap, foldl_visit]
  rfl

/-- **A walk through sets of states** adds what it finds without buffers. -/
theorem walkSets_alike (buffers : Buffers α) (bytes : Bytes) :
    SameOutcome (fun walked found => walked.payloads = buffers.payloads.add found)
      (buffers.walkSets fa threshold bytes) (fa.setTrail threshold buffers.current bytes) := by
  induction bytes generalizing buffers with
  | nil =>
    rw [walkSets, ← List.foldl_flatMap, foldl_add]
    exact .ok rfl
  | cons byte rest ih =>
    -- a walk that is in no state stops here, and the other one finds nothing to list
    by_cases hcurrent : buffers.current = []
    · rw [walkSets_of_nil hcurrent, hcurrent]
      exact .ok rfl
    · rw [walkSets_cons hcurrent, Automaton.setTrail]
      -- the same states come next, and either there are none of them or the walk goes on
      generalize StateSet.distinct threshold (fa.stepAll (fa.closureAll buffers.current) byte) = next
      cases next with
      | nil =>
        show SameOutcome _ (walkSets fa threshold _ rest) _
        rw [walkSets_of_nil rfl]
        exact .ok rfl
      | cons first more =>
        apply (SameOutcome.refl _).bind
        intro _ _ _
        -- what is found from here on comes behind the payloads of the sets visited
        apply (ih _).bind_right
        intro walked found h
        refine .ok (h.trans ?_)
        exact PayloadSet.add_append _ _ _

end Buffers

namespace Automaton

variable (fa : Automaton α) (threshold : Nat) (value : Bytes) (incoming : List α)
  (buffers : Buffers α)

theorem traverseStatesIn_alike :
    SameOutcome (fun walked found => walked.1 = found)
      (fa.traverseStatesIn value incoming buffers) (fa.traverseStates value incoming) := by
  apply (Buffers.walkStates_alike _ _ _).map
  intro walked found h
  exact Buffers.take_of_add rfl h

theorem traverseSetsIn_alike :
    SameOutcome (fun walked found => walked.1 = found)
      (fa.traverseSetsIn threshold value incoming buffers)
      (fa.traverseSets threshold value incoming) := by
  apply (Buffers.walkSets_alike _ _).map
  intro walked found h
  exact Buffers.take_of_add rfl h

/-- Of the two walks in buffers, the one is made that fits the automaton. -/
theorem traverseIn_eq :
    fa.traverseIn threshold value incoming buffers =
      if fa.deterministic then fa.traverseStatesIn value incoming buffers
      else fa.traverseSetsIn threshold value incoming buffers := rfl

/-- **What is found in buffers is what is found without them.** -/
theorem traverseIn_alike :
    SameOutcome (fun walked found => walked.1 = found)
      (fa.traverseIn threshold value incoming buffers) (fa.traverse threshold value incoming) := by
  rw [traverseIn_eq, traverse]
  split
  · exact fa.traverseStatesIn_alike value incoming buffers
  · exact fa.traverseSetsIn_alike threshold value incoming buffers

end Automaton

/-! ### Walks through the cache -/

omit [DecidableEq α] in
/-- Gathering puts the closures of the states to which the byte leads one behind the other, if these
states are there. -/
theorem Buffers.foldlM_gatherFrom (buffers : Buffers α) (fa : Automaton α) (states : List StateId)
    (byte : UInt8) :
    states.foldlM (gatherFrom fa byte) buffers =
      (fun _ => { buffers with
        next := buffers.next ++ fa.closureAll (fa.stepAll states byte) }) <$>
        fa.requireStates (fa.stepAll states byte) := by
  induction states generalizing buffers with
  | nil =>
    show Except.ok buffers = Except.ok { buffers with next := buffers.next ++ [] }
    rw [List.append_nil]
  | cons state states ih =>
    rw [List.foldlM_cons, gatherFrom]
    cases hstep : fa.step state byte with
    | none =>
      rw [Automaton.stepAll_cons_of_none hstep]
      exact ih buffers
    | some target =>
      -- one state is checked here, the others where the induction goes on
      rw [Automaton.stepAll_cons_of_some hstep, fa.requireStates_cons]
      dsimp only
      cases fa.requireStates [target] with
      | error e => rfl
      | ok =>
        have hclosures : fa.closureAll (target :: fa.stepAll states byte) =
            fa.closure target ++ fa.closureAll (fa.stepAll states byte) := List.flatMap_cons
        refine (ih _).trans ?_
        rw [hclosures, ← List.append_assoc]
        rfl

omit [DecidableEq α] in
/-- What is gathered are the successors, before they are sorted. -/
theorem Buffers.gather_alike (buffers : Buffers α) (fa : Automaton α) (states : List StateId)
    (byte : UInt8) :
    SameOutcome
      (fun gathered next => gathered.payloads = buffers.payloads ∧
        StateSet.sorted gathered.next = next)
      (buffers.gather fa states byte) (fa.successors states byte) := by
  rw [gather, foldlM_gatherFrom, ← bind_pure_comp]
  unfold Automaton.successors
  exact (SameOutcome.refl _).bind fun _ _ _ => .ok ⟨rfl, rfl⟩

namespace Cache

variable {fa : Automaton α} {threshold : Nat}

/-- A step in buffers takes the same move, leaves the same cache and adds no payloads. -/
def StepAlike (buffers : Buffers α) (stepped : Move × Cache α × Buffers α)
    (plain : Move × Cache α) : Prop :=
  stepped.1 = plain.1 ∧ stepped.2.1 = plain.2 ∧ stepped.2.2.payloads = buffers.payloads

theorem workOutIn_alike (cache : Cache α) (source : Nat) (members : List StateId) (byte : UInt8)
    (buffers : Buffers α) :
    SameOutcome (StepAlike buffers) (cache.workOutIn fa source members byte buffers)
      (cache.workOut fa source members byte) := by
  unfold workOutIn workOut
  refine (buffers.gather_alike fa members byte).bind ?_
  rintro gathered next ⟨hpayloads, rfl⟩
  by_cases hdead : gathered.next = []
  · -- nowhere to go, and sorting does not change that
    rw [if_pos (by simpa using hdead), StateSet.sorted_eq_nil_iff.2 hdead]
    exact .ok ⟨rfl, rfl, hpayloads⟩
  · rw [if_neg (by simpa using hdead)]
    dsimp only
    cases hnext : StateSet.sorted gathered.next with
    | nil => exact absurd (StateSet.sorted_eq_nil_iff.1 hnext) hdead
    | cons first more =>
      dsimp only
      -- from here on the buffers do not come in any more
      rcases cache.locate fa (first :: more) with ⟨_ | target, located⟩
      · exact .ok ⟨rfl, rfl, hpayloads⟩
      · exact .ok ⟨rfl, rfl, hpayloads⟩

theorem stepIn_alike (cache : Cache α) (source : Nat) (byte : UInt8) (buffers : Buffers α) :
    SameOutcome (StepAlike buffers) (cache.stepIn fa source byte buffers)
      (cache.step fa source byte) := by
  unfold stepIn step
  by_cases hbyte : InAlphabet byte
  · rw [if_neg (not_not.2 hbyte), if_neg (not_not.2 hbyte)]
    cases cache.dfa.subsets[source]? with
    | none => exact .fault _
    | some subset =>
      dsimp only
      rcases subset.moves.lookup byte with _ | _ | target
      · exact workOutIn_alike _ _ _ _ _
      · exact .ok ⟨rfl, rfl, rfl⟩
      · exact .ok ⟨rfl, rfl, rfl⟩
  · rw [if_pos hbyte, if_pos hbyte]
    exact .ok ⟨rfl, rfl, rfl⟩

/-- **A walk in buffers from a kept set** leaves the same cache and adds what it finds. -/
theorem trailIn_alike (cache : Cache α) (buffers : Buffers α) (source : Nat) (bytes : Bytes) :
    SameOutcome
      (fun walked plain => walked.1 = plain.2 ∧
        walked.2.payloads = buffers.payloads.add plain.1)
      (trailIn fa threshold cache buffers source bytes)
      (trail fa threshold cache source bytes) := by
  induction bytes generalizing cache buffers source with
  | nil => exact .ok ⟨rfl, rfl⟩
  | cons byte rest ih =>
    unfold trailIn trail
    refine (stepIn_alike cache source byte buffers).bind ?_
    rintro ⟨move, stepped, walked⟩ ⟨_, _⟩ ⟨rfl, rfl, hpayloads⟩
    dsimp only at hpayloads ⊢
    cases move with
    | dead => exact .ok ⟨rfl, hpayloads⟩
    | exhausted =>
      -- the set goes to the current states, whatever was left there
      refine (Buffers.walkSets_alike _ _).bind fun last found h => ?_
      refine .ok ⟨rfl, h.trans ?_⟩
      show walked.payloads.add found = buffers.payloads.add found
      rw [hpayloads]
    | «to» target =>
      -- the payloads of the next set are in the buffers when the walk goes on from there
      refine (ih _ _ target).bind_right ?_
      rintro last ⟨found, _⟩ ⟨rfl, h⟩
      refine .ok ⟨rfl, h.trans ?_⟩
      show (walked.payloads.add _).add found = _
      rw [hpayloads, PayloadSet.add_append]

/-- **A walk through the cache** finds in buffers what it finds without them, and leaves the same
cache. -/
theorem traverseIn_alike (cache : Cache α) (value : Bytes) (incoming : List α)
    (buffers : Buffers α) :
    SameOutcome (fun walked plain => walked.1 = plain.1 ∧ walked.2.1 = plain.2)
      (cache.traverseIn fa threshold value incoming buffers)
      (cache.traverse fa threshold value incoming) := by
  unfold traverseIn traverse
  rcases cache.locateStart fa with ⟨_ | source, located⟩
  · refine (Buffers.walkSets_alike _ _).bind fun walked found h => ?_
    exact .ok ⟨Buffers.take_of_add rfl h, rfl⟩
  · refine (trailIn_alike located _ source _).bind ?_
    rintro ⟨last, walked⟩ ⟨found, _⟩ ⟨rfl, h⟩
    -- whatever was left in the buffers is gone, and what comes in is the first to be added
    have hprepared : (buffers.prepare incoming).payloads = PayloadSet.empty.add incoming := rfl
    refine .ok ⟨Buffers.take_of_add hprepared ?_, rfl⟩
    exact h.trans (PayloadSet.add_append _ _ _)

end Cache

/-! ### Calls -/

namespace BufferedContext

/-- A walk in the buffers of a context comes out as a walk of the context alone. -/
def WalkAlike (walked : List α × BufferedContext α) (plain : List α × Context α) : Prop :=
  walked.1 = plain.1 ∧ walked.2.context = plain.2

theorem traverse_alike (ctx : BufferedContext α) (fa : Automaton α) (value : Bytes)
    (incoming : List α) :
    SameOutcome (fun walked found => walked.1 = found ∧ walked.2.context = ctx.context)
      (ctx.traverse fa value incoming) (ctx.context.traverse fa value incoming) := by
  refine (fa.traverseIn_alike _ value incoming ctx.buffers).bind_left ?_
  rintro ⟨found, buffers⟩ _ rfl
  exact .ok ⟨rfl, rfl⟩

theorem traverseCached_alike (ctx : BufferedContext α) (snapshot : Snapshot α) (value : Bytes)
    (incoming : List α) :
    SameOutcome WalkAlike (ctx.traverseCached snapshot value incoming)
      (ctx.context.traverseCached snapshot value incoming) := by
  unfold traverseCached Context.traverseCached
  split
  · -- without the cache only the buffers change
    refine (ctx.traverse_alike _ value incoming).bind_right ?_
    rintro ⟨found, last⟩ _ ⟨rfl, hcontext⟩
    exact .ok ⟨rfl, hcontext⟩
  · refine (SameOutcome.refl _).bind ?_
    rintro cache _ rfl
    refine (Cache.traverseIn_alike cache value incoming ctx.buffers).bind ?_
    rintro ⟨found, last, buffers⟩ ⟨_, _⟩ ⟨rfl, rfl⟩
    exact .ok ⟨rfl, rfl⟩

theorem matchValueIn_alike (ctx : BufferedContext α) (matcher : Matcher α) (value : Bytes)
    (incoming : List α) :
    SameOutcome WalkAlike (matcher.matchValueIn ctx value incoming)
      (matcher.matchValue ctx.context value incoming) := by
  unfold Matcher.matchValueIn Matcher.matchValue
  dsimp only
  split
  · exact .ok ⟨rfl, rfl⟩
  · exact ctx.traverseCached_alike _ value _

/-- **A context with buffers serves a call as the context alone does**, whatever the buffers hold. -/
theorem serve_alike (ctx : BufferedContext α) (call : Call α) :
    SameOutcome (fun served plain => served.1 = plain.1 ∧ served.2.context = plain.2)
      (ctx.serve call) (ctx.context.serve call) := by
  cases call with
  | traverse fa value incoming =>
    refine (ctx.traverse_alike fa value incoming).bind ?_
    rintro ⟨found, last⟩ _ ⟨rfl, hcontext⟩
    exact .ok ⟨rfl, hcontext⟩
  | traverseCached snapshot value incoming =>
    refine (ctx.traverseCached_alike snapshot value incoming).bind ?_
    rintro ⟨found, last⟩ ⟨_, _⟩ ⟨rfl, rfl⟩
    exact .ok ⟨rfl, rfl⟩
  | matchValue matcher value incoming =>
    refine (ctx.matchValueIn_alike matcher value incoming).bind ?_
    rintro ⟨found, last⟩ ⟨_, _⟩ ⟨rfl, rfl⟩
    exact .ok ⟨rfl, rfl⟩
  | stats => exact .ok ⟨rfl, rfl⟩
  | clear => exact .ok ⟨rfl, rfl⟩

/-- **Any number of calls** get the replies that they get without buffers. -/
theorem serveAll_alike (ctx : BufferedContext α) (calls : List (Call α)) :
    SameOutcome (fun served plain => served.1 = plain.1 ∧ served.2.context = plain.2)
      (serveAll serve ctx calls) (serveAll Context.serve ctx.context calls) := by
  have hserve : ∀ (held : BufferedContext α) (plain : Context α) (call : Call α),
      held.context = plain →
      SameOutcome (fun served plain => served.1 = plain.1 ∧ served.2.context = plain.2)
        (held.serve call) (plain.serve call) := by
    rintro held _ call rfl
    exact held.serve_alike call
  refine (serveAll_relates hserve rfl calls).imp ?_
  rintro ⟨replies, last⟩ ⟨replies', last'⟩ ⟨hreplies, hlast⟩
  rw [List.forall₂_eq_eq_eq] at hreplies
  exact ⟨hreplies, hlast⟩

end BufferedContext

end ByteMatch
