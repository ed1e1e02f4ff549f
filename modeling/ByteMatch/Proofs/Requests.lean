import ByteMatch.Proofs.MatcherLanguage
import ByteMatch.Proofs.Sessions

/-!
# What a matcher was asked for

In the history of a session a matcher is asked, between whatever else happens, to add patterns and
automata, and refuses some of the patterns. `Session.requestsOf` reads this off the events. What the
matcher holds are the requests that it did not refuse (`Session.History.serves`), and it answers
values accordingly: `Matcher.Matched` says in which order, and that nothing else is found, where
`Session.History.matchers_answer_requests` puts it together. The contexts with which it is asked may
have served other matchers and earlier editions of this one.
-/

namespace ByteMatch

variable {α : Type} [DecidableEq α]

namespace Session

variable {events : List (Event α)} {session session' : Session α} {name : String}

/-! ### Requests -/

/-- What a matcher was asked to add, and why it refused to, if it did. -/
structure Request (α : Type) where
  addition : Addition α
  refusal : Option PatternError

/-- The additions that were not refused, in order. -/
def accepted (requests : List (Request α)) : List (Addition α) :=
  (requests.filter fun request => request.refusal.isNone).map Request.addition

/-- Notes an event in the list of what the matcher of this name was asked for. There is none before
the matcher is opened, and opening another one under its name begins a new list. -/
def note (name : String) (requests : Option (List (Request α))) (event : Event α) :
    Option (List (Request α)) :=
  match event.command, event.answer with
  | .openMatcher opened, _ => if opened = name then some [] else requests
  | .addPattern asker asked payload, .matcher _ refusal =>
    if asker = name then requests.map (· ++ [⟨.pattern asked payload, refusal⟩]) else requests
  | .addAutomaton asker automaton, .matcher _ refusal =>
    match event.before.automata.lookup automaton with
    | some snapshot =>
      if asker = name then requests.map (· ++ [⟨.automaton snapshot.automaton, refusal⟩])
      else requests
    | none => requests
  | _, _ => requests

omit [DecidableEq α] in
private theorem accepted_append (requests : List (Request α)) (request : Request α) :
    accepted (requests ++ [request]) =
      accepted requests ++ if request.refusal.isNone then [request.addition] else [] := by
  unfold accepted
  rw [List.filter_append, List.map_append]
  congr 1
  cases hrefusal : request.refusal <;> simp [hrefusal]

/-! ### What a matcher holds -/

/-- Steps of the automata that were requested lead to states of them. -/
def TargetsInside (requests : List (Request α)) : Prop :=
  ∀ request ∈ requests, ∀ fa, request.addition = .automaton fa →
    ∀ state byte next, fa.step state byte = some next → next < fa.size

omit [DecidableEq α] in
private theorem TargetsInside.of_append {before after : List (Request α)}
    (h : TargetsInside (before ++ after)) : TargetsInside before :=
  fun request hrequest => h request (List.mem_append_left _ hrequest)

/-- **The matcher of this name holds what it was asked for** and did not refuse. -/
def Serves (name : String) (requests : Option (List (Request α))) (session : Session α) : Prop :=
  ∀ asked, requests = some asked → TargetsInside asked →
    ∃ matcher, resolve session.matchers name = .ok matcher ∧
      Matcher.Built (accepted asked) matcher

variable {requests : Option (List (Request α))}

private theorem Serves.of_matchers_eq (h : Serves name requests session)
    (heq : session'.matchers = session.matchers) : Serves name requests session' := by
  intro asked hasked hinside
  rw [heq]
  exact h asked hasked hinside

omit [DecidableEq α] in
private theorem resolve_bindMatcher (session : Session α) (name name' : String)
    (matcher : Matcher α) :
    resolve (session.bindMatcher name matcher).matchers name' =
      if name' = name then .ok matcher else resolve session.matchers name' := by
  unfold resolve bindMatcher
  dsimp only
  rw [Names.lookup_bind]
  by_cases h : name' = name
  · rw [if_pos h, if_pos h]
  · rw [if_neg h, if_neg h]

/-- A matcher that was asked for something and has done it takes the place of what it was. -/
theorem Serves.bindMatcher (h : Serves name requests session) {asker : String}
    {matcher matcher' : Matcher α} {request : Request α}
    (hmatcher : resolve session.matchers asker = .ok matcher)
    (hbuilt : ∀ asked, TargetsInside (asked ++ [request]) → Matcher.Built (accepted asked) matcher →
      Matcher.Built (accepted (asked ++ [request])) matcher') :
    Serves name (if asker = name then requests.map (· ++ [request]) else requests)
      (session.bindMatcher asker matcher') := by
  intro asked hasked hinside
  rw [resolve_bindMatcher]
  by_cases hname : asker = name
  · subst hname
    rw [if_pos rfl] at hasked ⊢
    obtain ⟨before, hbefore, rfl⟩ := Option.map_eq_some_iff.1 hasked
    refine ⟨matcher', rfl, hbuilt before hinside ?_⟩
    -- what was asked for before is held by the matcher that was asked
    obtain ⟨held, hheld, hbuilt⟩ := h before hbefore hinside.of_append
    rw [hmatcher] at hheld
    rwa [Except.ok.inj hheld]
  · rw [if_neg hname] at hasked
    rw [if_neg (Ne.symm hname)]
    exact h asked hasked hinside

/-- A matcher that refuses what it was asked for is what it was. -/
theorem Serves.refuse (h : Serves name requests session) (asker : String) {request : Request α}
    (hrefusal : request.refusal.isNone = false) :
    Serves name (if asker = name then requests.map (· ++ [request]) else requests) session := by
  intro asked hasked hinside
  by_cases hname : asker = name
  · rw [if_pos hname] at hasked
    obtain ⟨before, hbefore, rfl⟩ := Option.map_eq_some_iff.1 hasked
    obtain ⟨matcher, hmatcher, hbuilt⟩ := h before hbefore hinside.of_append
    refine ⟨matcher, hmatcher, ?_⟩
    rwa [accepted_append, hrefusal, if_neg Bool.false_ne_true, List.append_nil]
  · rw [if_neg hname] at hasked
    exact h asked hasked hinside

/-- A matcher that was opened has not been asked for anything. -/
theorem Serves.openMatcher (h : Serves name requests session) (opened : String) :
    Serves name (if opened = name then some [] else requests)
      (session.bindMatcher opened (Matcher.empty session.nextId)) := by
  intro asked hasked hinside
  rw [resolve_bindMatcher]
  by_cases hname : opened = name
  · rw [if_pos hname] at hasked
    rw [if_pos hname.symm, ← Option.some.inj hasked]
    exact ⟨_, rfl, .empty session.nextId⟩
  · rw [if_neg hname] at hasked
    rw [if_neg (Ne.symm hname)]
    exact h asked hasked hinside

/-- **Every command keeps matchers at what they were asked for.** -/
theorem Serves.exec (h : Serves name requests session)
    (hautomata : ∀ entry ∈ session.automata, entry.2.automaton.ReadsAlphabet)
    {command : Command α} {answer : Answer α}
    (hexec : session.exec command = .ok (session', answer)) :
    Serves name (note name requests ⟨session, command, answer⟩) session' := by
  cases effect_of_exec hexec with
  | defined => exact h.of_matchers_eq rfl
  | notDefined => exact h
  | contextOpened => exact h.of_matchers_eq rfl
  | matcherOpened => exact h.openMatcher _
  | patternAdded hmatcher hadd =>
    refine h.bindMatcher hmatcher fun asked _ hbuilt => ?_
    rw [accepted_append]
    exact .pattern session.nextId _ _ hbuilt hadd
  | patternRefused =>
    -- the refusal is noted, and nothing else happens
    exact h.refuse _ rfl
  | automatonAdded hmatcher hsnapshot =>
    have hlookup := resolve_eq_ok_iff.1 hsnapshot
    rw [note]
    simp only [hlookup]
    refine h.bindMatcher hmatcher fun asked hinside hbuilt => ?_
    rw [accepted_append]
    -- the automaton reads the alphabet, being one of the session, and its steps were asked to stay
    have hsteps := (hautomata _ (mem_of_resolve hsnapshot)).stepsInside
      (hinside _ (List.mem_append_right _ List.mem_cons_self) _ rfl)
    exact .automaton session.nextId _ hbuilt hsteps
  | traversed => exact h
  | traversedIn => exact h.of_matchers_eq rfl
  | traversedCached => exact h.of_matchers_eq rfl
  | matched => exact h.of_matchers_eq rfl
  | cleared => exact h.of_matchers_eq rfl

end Session

end ByteMatch
