import ByteMatch.Proofs.MatcherLanguage
import ByteMatch.Session

/-!
# What a session shows

Contexts are told apart by what they have walked, and what they have walked by its identity: that an
identity stands for one automaton is what `Context.Reachable` takes from a table of publications. A
session makes such a table as it goes on, out of the automata that its answers show. The table holds
also what no name stands for any more, since a context may still hold a cache for it.

`Session.Effect` says once what each command does when it is carried out; what is proved of commands
goes by its cases. `Session.History events session` is what commands lead to, with every event on
the way, and `Session.shownIn` lists the automata shown by the answers. Every history is coherent
(`Session.History.coherent`): an identity is shown with one automaton only, whatever has a name has
been shown, and contexts have walked nothing but what has been shown.

A command shows at most one automaton, and one that has not been shown before has the next identity,
which is above all that have (`Session.Coherent.show`). What was shown stays in the table, and a
history of walks taken from the table is one taken from the larger table (`Context.Reachable.mono`).
-/

namespace ByteMatch

variable {α : Type}

/-! ### Tables of what was shown -/

/-- The table of the automata listed: an identity stands for the first of them that has it. -/
def Publications.ofList (shown : List (Snapshot α)) : Publications α :=
  fun id => shown.find? fun snapshot => snapshot.id == id

/-- No two of the automata listed have one identity. -/
def Snapshot.OnePerId (shown : List (Snapshot α)) : Prop :=
  ∀ s ∈ shown, ∀ s' ∈ shown, s.id = s'.id → s = s'

/-- What was published stays published. -/
def Publications.Grow (published published' : Publications α) : Prop :=
  ∀ id snapshot, published id = some snapshot → published' id = some snapshot

theorem Publications.mem_of_ofList {shown : List (Snapshot α)} {id : Nat} {snapshot : Snapshot α}
    (h : ofList shown id = some snapshot) : snapshot ∈ shown ∧ snapshot.id = id :=
  ⟨List.mem_of_find?_eq_some h, by simpa using List.find?_some h⟩

/-- Further automata leave the first one with an identity where it is. -/
theorem Publications.grow_append (shown more : List (Snapshot α)) :
    Grow (ofList shown) (ofList (shown ++ more)) := by
  intro id snapshot h
  -- the first one with the identity is looked for, so what comes behind does not matter
  have hfirst : shown.find? (fun snapshot => snapshot.id == id) = some snapshot := h
  rw [ofList, List.find?_append, hfirst, Option.some_or]

theorem Snapshot.OnePerId.publishedIn {shown : List (Snapshot α)} (h : OnePerId shown)
    {snapshot : Snapshot α} (hmem : snapshot ∈ shown) :
    snapshot.PublishedIn (Publications.ofList shown) := by
  unfold PublishedIn
  cases hfind : Publications.ofList shown snapshot.id with
  | none =>
    have hnone := List.find?_eq_none.1 hfind snapshot hmem
    simp at hnone
  | some other =>
    -- another one with its identity is no other
    obtain ⟨hother, hid⟩ := Publications.mem_of_ofList hfind
    rw [h other hother snapshot hmem hid]

/-- A history of walks does not mind what else is published. -/
theorem Context.Reachable.mono [DecidableEq α] {published published' : Publications α}
    (hgrow : Publications.Grow published published') {ctx : Context α}
    (h : ctx.Reachable published) : ctx.Reachable published' := by
  induction h with
  | fresh config => exact .fresh config
  | walked _ hsnapshot hwalk ih => exact .walked ih (hgrow _ _ hsnapshot) hwalk
  | cleared _ ih => exact .cleared ih

/-- The automata that an answer shows. -/
def Answer.snapshots : Answer α → List (Snapshot α)
  | .published snapshot => [snapshot]
  | .matcher held _ => [held.snapshot]
  | .refused _ => []
  | .context _ => []
  | .found _ => []
  | .foundIn _ => []

/-! ### Names -/

private theorem Names.mem_bind {β : Type} {names : Names β} {name : String} {x : β}
    {entry : String × β} (h : entry ∈ names.bind name x) : entry = (name, x) ∨ entry ∈ names := by
  rcases List.mem_cons.1 h with h | h
  · exact .inl h
  · exact .inr (List.mem_filter.1 h).1

theorem Names.lookup_bind {β : Type} (names : Names β) (name name' : String) (x : β) :
    (names.bind name x).lookup name' = if name' = name then some x else names.lookup name' := by
  rw [bind, List.lookup_cons]
  by_cases h : name' = name
  · subst h
    rw [if_pos rfl, beq_self_eq_true]
  · -- the entries that are dropped are under another name
    rw [if_neg h, beq_eq_false_iff_ne.2 h]
    show (names.filter fun entry => entry.1 ≠ name).lookup name' = names.lookup name'
    induction names with
    | nil => rfl
    | cons entry names ih =>
      by_cases hentry : entry.1 = name
      · -- an entry that is dropped would not have been found anyway
        have hne : (name' == entry.1) = false := beq_eq_false_iff_ne.2 (hentry ▸ h)
        rw [List.filter_cons_of_neg (by simpa using hentry), List.lookup_cons, hne]
        exact ih
      · rw [List.filter_cons_of_pos (by simpa using hentry), List.lookup_cons, List.lookup_cons, ih]

namespace Session

theorem resolve_eq_ok_iff {β : Type} {names : Names β} {name : String} {x : β} :
    resolve names name = .ok x ↔ names.lookup name = some x := by
  unfold resolve
  cases names.lookup name with
  | none => simp
  | some y => simp

/-- What a name stands for is named. -/
theorem mem_of_resolve {β : Type} {names : Names β} {name : String} {x : β}
    (h : resolve names name = .ok x) : (name, x) ∈ names := by
  obtain ⟨before, after, rfl, -⟩ := List.lookup_eq_some_iff.1 (resolve_eq_ok_iff.1 h)
  exact List.mem_append_right _ List.mem_cons_self

private theorem eq_ok_of_lift {β : Type} {work : Except Fault β} {x : β} (h : lift work = .ok x) :
    work = .ok x := by
  cases work with
  | error e => contradiction
  | ok y => exact congrArg Except.ok (Except.ok.inj h)

/-! ### What commands do -/

section Effects

variable [DecidableEq α]

/-- **What a command does** when it is carried out: what it names anew, and what it answers. -/
inductive Effect (session : Session α) : Command α → Session α → Answer α → Prop
  | defined {name : String} {source : Source α} {snapshot : Snapshot α} :
      session.build source = .ok (.ok snapshot) →
      Effect session (.define name source) (session.bindSnapshot name snapshot)
        (.published snapshot)
  | notDefined {name : String} {source : Source α} {e : PatternError} :
      session.build source = .ok (.error e) →
      Effect session (.define name source) session (.refused e)
  | contextOpened {name : String} {config : Config} :
      Effect session (.openContext name config) (session.bindContext name (Context.ofConfig config))
        (.context (Context.ofConfig config))
  | matcherOpened {name : String} :
      Effect session (.openMatcher name)
        (session.bindMatcher name (Matcher.empty session.nextId))
        (.matcher (Matcher.empty session.nextId) none)
  | patternAdded {name : String} {asked : Pattern} {payload : α} {matcher matcher' : Matcher α} :
      resolve session.matchers name = .ok matcher →
      matcher.add session.nextId asked payload = .ok matcher' →
      Effect session (.addPattern name asked payload) (session.bindMatcher name matcher')
        (.matcher matcher' none)
  | patternRefused {name : String} {asked : Pattern} {payload : α} {matcher : Matcher α}
      {e : PatternError} :
      resolve session.matchers name = .ok matcher →
      matcher.add session.nextId asked payload = .error e →
      Effect session (.addPattern name asked payload) session (.matcher matcher (some e))
  | automatonAdded {name automaton : String} {matcher : Matcher α} {snapshot : Snapshot α} :
      resolve session.matchers name = .ok matcher →
      resolve session.automata automaton = .ok snapshot →
      Effect session (.addAutomaton name automaton)
        (session.bindMatcher name (matcher.addAutomaton session.nextId snapshot.automaton))
        (.matcher (matcher.addAutomaton session.nextId snapshot.automaton) none)
  | traversed {automaton : String} {values : List Bytes} {incoming : List α}
      {results : List (List α)} :
      Effect session (.traverse automaton values incoming) session (.found results)
  | traversedIn {name automaton : String} {values : List Bytes} {incoming : List α}
      {snapshot : Snapshot α} {ctx last : Context α} {results : List (List α × Stats)} :
      resolve session.automata automaton = .ok snapshot →
      resolve session.contexts name = .ok ctx →
      overValues (fun ctx v => (·, ctx) <$> ctx.traverse snapshot.automaton v incoming) ctx values =
        .ok (results, last) →
      Effect session (.traverseIn name automaton values incoming) (session.bindContext name last)
        (.foundIn results)
  | traversedCached {name automaton : String} {values : List Bytes} {incoming : List α}
      {snapshot : Snapshot α} {ctx last : Context α} {results : List (List α × Stats)} :
      resolve session.automata automaton = .ok snapshot →
      resolve session.contexts name = .ok ctx →
      overValues (fun ctx v => ctx.traverseCached snapshot v incoming) ctx values =
        .ok (results, last) →
      Effect session (.traverseCached name automaton values incoming)
        (session.bindContext name last) (.foundIn results)
  | matched {name asked : String} {values : List Bytes} {incoming : List α} {matcher : Matcher α}
      {ctx last : Context α} {results : List (List α × Stats)} :
      resolve session.matchers asked = .ok matcher →
      resolve session.contexts name = .ok ctx →
      overValues (fun ctx v => matcher.matchValue ctx v incoming) ctx values = .ok (results, last) →
      Effect session (.matchValues name asked values incoming) (session.bindContext name last)
        (.foundIn results)
  | cleared {name : String} {ctx : Context α} :
      resolve session.contexts name = .ok ctx →
      Effect session (.clear name) (session.bindContext name ctx.clear) (.context ctx.clear)

omit [DecidableEq α] in
/-- Walking values names the context anew. -/
theorem of_walkIn {session session' : Session α} {name : String} {values : List Bytes}
    {walk : Context α → Bytes → Except Fault (List α × Context α)} {answer : Answer α}
    (h : session.walkIn name values walk = .ok (session', answer)) :
    ∃ ctx last results, resolve session.contexts name = .ok ctx ∧
      overValues walk ctx values = .ok (results, last) ∧
      session' = session.bindContext name last ∧ answer = .foundIn results := by
  obtain ⟨ctx, hctx, h⟩ := bind_eq_ok_iff.1 h
  obtain ⟨⟨results, last⟩, hresults, h⟩ := bind_eq_ok_iff.1 h
  obtain ⟨hsession, hanswer⟩ := Prod.mk.inj (Except.ok.inj h)
  exact ⟨ctx, last, results, hctx, eq_ok_of_lift hresults, hsession.symm, hanswer.symm⟩

/-- Commands that are carried out do nothing else. -/
theorem effect_of_exec {session session' : Session α} {command : Command α} {answer : Answer α}
    (h : session.exec command = .ok (session', answer)) :
    Effect session command session' answer := by
  cases command with
  | define name source =>
    obtain ⟨built, hbuilt, h⟩ := bind_eq_ok_iff.1 h
    cases built with
    | error e =>
      obtain ⟨rfl, rfl⟩ := Prod.mk.inj (Except.ok.inj h)
      exact .notDefined hbuilt
    | ok snapshot =>
      obtain ⟨rfl, rfl⟩ := Prod.mk.inj (Except.ok.inj h)
      exact .defined hbuilt
  | openContext name config =>
    obtain ⟨rfl, rfl⟩ := Prod.mk.inj (Except.ok.inj h)
    exact .contextOpened
  | openMatcher name =>
    obtain ⟨rfl, rfl⟩ := Prod.mk.inj (Except.ok.inj h)
    exact .matcherOpened
  | addPattern name asked payload =>
    obtain ⟨matcher, hmatcher, h⟩ := bind_eq_ok_iff.1 h
    split at h
    · next e hadd =>
      obtain ⟨rfl, rfl⟩ := Prod.mk.inj (Except.ok.inj h)
      exact .patternRefused hmatcher hadd
    · next matcher' hadd =>
      obtain ⟨rfl, rfl⟩ := Prod.mk.inj (Except.ok.inj h)
      exact .patternAdded hmatcher hadd
  | addAutomaton name automaton =>
    obtain ⟨matcher, hmatcher, h⟩ := bind_eq_ok_iff.1 h
    obtain ⟨snapshot, hsnapshot, h⟩ := bind_eq_ok_iff.1 h
    obtain ⟨rfl, rfl⟩ := Prod.mk.inj (Except.ok.inj h)
    exact .automatonAdded hmatcher hsnapshot
  | traverse automaton values incoming =>
    obtain ⟨snapshot, -, h⟩ := bind_eq_ok_iff.1 h
    obtain ⟨results, -, h⟩ := bind_eq_ok_iff.1 h
    obtain ⟨rfl, rfl⟩ := Prod.mk.inj (Except.ok.inj h)
    exact .traversed
  | traverseIn name automaton values incoming =>
    obtain ⟨snapshot, hsnapshot, h⟩ := bind_eq_ok_iff.1 h
    obtain ⟨ctx, last, results, hctx, hresults, rfl, rfl⟩ := of_walkIn h
    exact .traversedIn hsnapshot hctx hresults
  | traverseCached name automaton values incoming =>
    obtain ⟨snapshot, hsnapshot, h⟩ := bind_eq_ok_iff.1 h
    obtain ⟨ctx, last, results, hctx, hresults, rfl, rfl⟩ := of_walkIn h
    exact .traversedCached hsnapshot hctx hresults
  | matchValues name asked values incoming =>
    obtain ⟨matcher, hmatcher, h⟩ := bind_eq_ok_iff.1 h
    obtain ⟨ctx, last, results, hctx, hresults, rfl, rfl⟩ := of_walkIn h
    exact .matched hmatcher hctx hresults
  | clear name =>
    obtain ⟨ctx, hctx, h⟩ := bind_eq_ok_iff.1 h
    obtain ⟨rfl, rfl⟩ := Prod.mk.inj (Except.ok.inj h)
    exact .cleared hctx

end Effects

/-! ### The table of a session -/

variable [DecidableEq α] {shown : List (Snapshot α)} {session session' : Session α}
  {name : String} {snapshot : Snapshot α} {matcher : Matcher α} {ctx ctx' : Context α}

/-- **The session has shown what is listed**: all identities are below the next one and stand for
one automaton, which reads bytes of the alphabet only; what has a name is listed, and contexts have
walked what is listed. -/
structure Coherent (shown : List (Snapshot α)) (session : Session α) : Prop where
  id_lt : ∀ snapshot ∈ shown, snapshot.id < session.nextId
  onePerId : Snapshot.OnePerId shown
  readsAlphabet : ∀ snapshot ∈ shown, snapshot.automaton.ReadsAlphabet
  automata : ∀ entry ∈ session.automata, entry.2 ∈ shown
  matchers : ∀ entry ∈ session.matchers, entry.2.snapshot ∈ shown
  contexts : ∀ entry ∈ session.contexts, entry.2.Reachable (Publications.ofList shown)

/-- A snapshot that may be shown: one that has been, or one under the next identity. -/
def Showable (shown : List (Snapshot α)) (session : Session α) (snapshot : Snapshot α) : Prop :=
  snapshot.id = session.nextId ∧ snapshot.automaton.ReadsAlphabet ∨ snapshot ∈ shown

/-- **One more automaton is shown**, and the next identity is above its own. -/
theorem Coherent.show (h : Coherent shown session) (hshowable : Showable shown session snapshot) :
    Coherent (shown ++ [snapshot])
      { session with nextId := max session.nextId (snapshot.id + 1) } where
  id_lt s hs := by
    show s.id < max session.nextId (snapshot.id + 1)
    rcases List.mem_append.1 hs with hs | hs
    · have hlt := h.id_lt s hs
      omega
    · rw [List.mem_singleton.1 hs]
      omega
  onePerId := by
    -- an automaton listed with the identity of the one shown is that one
    have hsame : ∀ s ∈ shown, s.id = snapshot.id → s = snapshot := by
      intro s hs hid
      rcases hshowable with ⟨hnext, -⟩ | hmem
      · have hlt := h.id_lt s hs
        omega
      · exact h.onePerId s hs snapshot hmem hid
    -- so it makes no difference which of the two is the one shown now
    intro s hs s' hs' hid
    rcases List.mem_append.1 hs with hold | hnew
    · rcases List.mem_append.1 hs' with hold' | hnew'
      · exact h.onePerId s hold s' hold' hid
      · rw [List.mem_singleton.1 hnew'] at hid ⊢
        exact hsame s hold hid
    · rw [List.mem_singleton.1 hnew] at hid ⊢
      rcases List.mem_append.1 hs' with hold' | hnew'
      · exact (hsame s' hold' hid.symm).symm
      · exact (List.mem_singleton.1 hnew').symm
  readsAlphabet s hs := by
    rcases List.mem_append.1 hs with hold | hnew
    · exact h.readsAlphabet s hold
    · rw [List.mem_singleton.1 hnew]
      exact hshowable.elim And.right (h.readsAlphabet snapshot)
  automata entry hentry := List.mem_append_left _ (h.automata entry hentry)
  matchers entry hentry := List.mem_append_left _ (h.matchers entry hentry)
  contexts entry hentry := (h.contexts entry hentry).mono (Publications.grow_append shown _)

/-- Showing once more what was shown changes nothing. -/
theorem Coherent.showAgain (h : Coherent shown session) (hmem : snapshot ∈ shown) :
    Coherent (shown ++ [snapshot]) session := by
  have hshown := h.show (.inr hmem)
  -- its identity is below the next one already
  have hnext : max session.nextId (snapshot.id + 1) = session.nextId := by
    have hlt := h.id_lt snapshot hmem
    omega
  rw [hnext] at hshown
  exact hshown

theorem Coherent.bindSnapshot (h : Coherent shown session)
    (hshowable : Showable shown session snapshot) (name : String) :
    Coherent (shown ++ [snapshot]) (session.bindSnapshot name snapshot) where
  id_lt := (h.show hshowable).id_lt
  onePerId := (h.show hshowable).onePerId
  readsAlphabet := (h.show hshowable).readsAlphabet
  automata entry hentry := by
    rcases Names.mem_bind hentry with rfl | hentry
    · exact List.mem_append_right _ (List.mem_singleton_self _)
    · exact (h.show hshowable).automata entry hentry
  matchers := (h.show hshowable).matchers
  contexts := (h.show hshowable).contexts

theorem Coherent.bindMatcher (h : Coherent shown session)
    (hshowable : Showable shown session matcher.snapshot) (name : String) :
    Coherent (shown ++ [matcher.snapshot]) (session.bindMatcher name matcher) where
  id_lt := (h.show hshowable).id_lt
  onePerId := (h.show hshowable).onePerId
  readsAlphabet := (h.show hshowable).readsAlphabet
  automata := (h.show hshowable).automata
  matchers entry hentry := by
    rcases Names.mem_bind hentry with rfl | hentry
    · exact List.mem_append_right _ (List.mem_singleton_self _)
    · exact (h.show hshowable).matchers entry hentry
  contexts := (h.show hshowable).contexts

theorem Coherent.bindContext (h : Coherent shown session)
    (hctx : ctx.Reachable (Publications.ofList shown)) (name : String) :
    Coherent shown (session.bindContext name ctx) where
  id_lt := h.id_lt
  onePerId := h.onePerId
  readsAlphabet := h.readsAlphabet
  automata := h.automata
  matchers := h.matchers
  contexts entry hentry := by
    rcases Names.mem_bind hentry with rfl | hentry
    · exact hctx
    · exact h.contexts entry hentry

/-! ### What is shown -/

/-- What is built has been shown already or is to be shown under the next identity. -/
theorem showable_of_build (h : Coherent shown session) {source : Source α}
    (hbuild : session.build source = .ok (.ok snapshot)) : Showable shown session snapshot := by
  cases source with
  | empty =>
    obtain rfl := Except.ok.inj (Except.ok.inj hbuild)
    exact .inl ⟨rfl, Automaton.stepsInside_empty.readsAlphabet⟩
  | pattern asked payload =>
    obtain ⟨fa, hfa, rfl⟩ := map_eq_ok_iff.1 (Except.ok.inj hbuild)
    exact .inl ⟨rfl, (Pattern.stepsInside hfa).readsAlphabet⟩
  | union left right =>
    obtain ⟨a, -, hbuild⟩ := bind_eq_ok_iff.1 hbuild
    obtain ⟨b, -, hbuild⟩ := bind_eq_ok_iff.1 hbuild
    obtain rfl := Except.ok.inj (Except.ok.inj hbuild)
    -- whatever the parts do, a union steps to states of its own
    exact .inl ⟨rfl, (Automaton.Union.stepsInside _ _).readsAlphabet⟩
  | copy automaton =>
    obtain ⟨found, hfound, heq⟩ := map_eq_ok_iff.1 hbuild
    obtain rfl := Except.ok.inj heq
    -- what has a name has been shown
    exact .inr (h.automata _ (mem_of_resolve hfound))
  | drafts drafts start =>
    -- its steps may lead anywhere
    obtain ⟨fa, hfa, hbuild⟩ := bind_eq_ok_iff.1 hbuild
    obtain rfl := Except.ok.inj (Except.ok.inj hbuild)
    exact .inl ⟨rfl, Automaton.readsAlphabet_ofDrafts (eq_ok_of_lift hfa)⟩
  | current name =>
    obtain ⟨matcher, hmatcher, hbuild⟩ := bind_eq_ok_iff.1 hbuild
    obtain rfl := Except.ok.inj (Except.ok.inj hbuild)
    exact .inr (h.matchers _ (mem_of_resolve hmatcher))

/-- A pattern that is added leaves the automaton alone or gives it the next identity. -/
theorem showable_of_add (hmatcher : matcher.snapshot ∈ shown) {asked : Pattern} {payload : α}
    {matcher' : Matcher α} (hadd : matcher.add session.nextId asked payload = .ok matcher') :
    Showable shown session matcher'.snapshot := by
  obtain ⟨scan, -, rfl⟩ | ⟨-, fa, -, rfl⟩ := Matcher.add_cases hadd
  · exact .inr hmatcher
  · exact .inl ⟨rfl, (Automaton.Union.stepsInside _ _).readsAlphabet⟩

section Walks

variable {published : Publications α}

/-- A walk that keeps contexts reachable does so value by value. -/
theorem reachable_of_overValues {walk : Context α → Bytes → Except Fault (List α × Context α)}
    (hwalk : ∀ ctx value found ctx', ctx.Reachable published →
      walk ctx value = .ok (found, ctx') → ctx'.Reachable published)
    {values : List Bytes} {results : List (List α × Stats)} (hctx : ctx.Reachable published)
    (h : overValues walk ctx values = .ok (results, ctx')) : ctx'.Reachable published := by
  induction values generalizing ctx results with
  | nil =>
    obtain ⟨-, rfl⟩ := Prod.mk.inj (Except.ok.inj h)
    exact hctx
  | cons value values ih =>
    obtain ⟨⟨found, next⟩, hfound, h⟩ := bind_eq_ok_iff.1 h
    obtain ⟨⟨later, last⟩, hlater, h⟩ := bind_eq_ok_iff.1 h
    obtain ⟨-, rfl⟩ := Prod.mk.inj (Except.ok.inj h)
    exact ih (hwalk _ _ _ _ hctx hfound) hlater

/-- Matching walks the matcher's automaton or nothing. -/
theorem reachable_of_matchValue (hmatcher : matcher.snapshot.PublishedIn published)
    (hctx : ctx.Reachable published) {value : Bytes} {incoming found : List α}
    (h : matcher.matchValue ctx value incoming = .ok (found, ctx')) : ctx'.Reachable published := by
  unfold Matcher.matchValue at h
  split at h
  · obtain ⟨-, rfl⟩ := Prod.mk.inj (Except.ok.inj h)
    exact hctx
  · -- there is something to walk, and it is walked through the cache
    exact .walked hctx hmatcher h

end Walks

/-- A context that walks what was shown is bound again. -/
theorem Coherent.bindWalked (h : Coherent shown session)
    (hctx : resolve session.contexts name = .ok ctx)
    {walk : Context α → Bytes → Except Fault (List α × Context α)}
    (hwalk : ∀ ctx value found ctx', ctx.Reachable (Publications.ofList shown) →
      walk ctx value = .ok (found, ctx') → ctx'.Reachable (Publications.ofList shown))
    {values : List Bytes} {results : List (List α × Stats)}
    (hresults : overValues walk ctx values = .ok (results, ctx')) :
    Coherent shown (session.bindContext name ctx') :=
  h.bindContext (reachable_of_overValues hwalk (h.contexts _ (mem_of_resolve hctx)) hresults) name

/-- **Every command keeps a session coherent**, its answer being added to what was shown. -/
theorem Coherent.exec (h : Coherent shown session) {command : Command α} {answer : Answer α}
    (hexec : session.exec command = .ok (session', answer)) :
    Coherent (shown ++ answer.snapshots) session' := by
  have hpublished : ∀ {snapshot}, snapshot ∈ shown →
      snapshot.PublishedIn (Publications.ofList shown) := h.onePerId.publishedIn
  -- a case for each effect: what is answered is shown now, and with what is named it has been before
  cases effect_of_exec hexec with
  | defined hbuild => exact h.bindSnapshot (showable_of_build h hbuild) _
  | notDefined =>
    rw [Answer.snapshots, List.append_nil]
    exact h
  | contextOpened =>
    rw [Answer.snapshots, List.append_nil]
    exact h.bindContext (.fresh _) _
  | matcherOpened =>
    exact h.bindMatcher (.inl ⟨rfl, Automaton.stepsInside_empty.readsAlphabet⟩) _
  | patternAdded hmatcher hadd =>
    exact h.bindMatcher (showable_of_add (h.matchers _ (mem_of_resolve hmatcher)) hadd) _
  | patternRefused hmatcher =>
    -- the matcher stays, and its automaton has been shown before
    exact h.showAgain (h.matchers _ (mem_of_resolve hmatcher))
  | automatonAdded =>
    exact h.bindMatcher (.inl ⟨rfl, (Automaton.Union.stepsInside _ _).readsAlphabet⟩) _
  | traversed =>
    rw [Answer.snapshots, List.append_nil]
    exact h
  | traversedIn _ hctx hresults =>
    rw [Answer.snapshots, List.append_nil]
    refine h.bindWalked hctx (fun ctx value found ctx' hreachable hwalk => ?_) hresults
    -- a walk without the cache leaves the context as it is
    obtain ⟨plain, -, heq⟩ := map_eq_ok_iff.1 hwalk
    obtain ⟨-, rfl⟩ := Prod.mk.inj heq
    exact hreachable
  | traversedCached hsnapshot hctx hresults =>
    rw [Answer.snapshots, List.append_nil]
    -- what has a name has been shown, and so it is published
    have hwalked := hpublished (h.automata _ (mem_of_resolve hsnapshot))
    exact h.bindWalked hctx (fun _ _ _ _ hreachable hwalk => .walked hreachable hwalked hwalk)
      hresults
  | matched hmatcher hctx hresults =>
    rw [Answer.snapshots, List.append_nil]
    have hmatched := hpublished (h.matchers _ (mem_of_resolve hmatcher))
    exact h.bindWalked hctx
      (fun _ _ _ _ hreachable hwalk => reachable_of_matchValue hmatched hreachable hwalk) hresults
  | cleared hctx =>
    rw [Answer.snapshots, List.append_nil]
    exact h.bindContext (.cleared (h.contexts _ (mem_of_resolve hctx))) _

/-! ### Histories -/

/-- A command that was carried out. -/
structure Event (α : Type) where
  /-- The session to which it was given. -/
  before : Session α
  command : Command α
  answer : Answer α

/-- The sessions that come about by commands, with what has happened in them, in order. -/
inductive History : List (Event α) → Session α → Prop
  | empty : History [] Session.empty
  | step {events : List (Event α)} {session session' : Session α} {command : Command α}
      {answer : Answer α} :
      History events session → session.exec command = .ok (session', answer) →
      History (events ++ [⟨session, command, answer⟩]) session'

/-- Carries out commands one after the other and notes what happens. -/
def run : Session α → List (Command α) → Except SessionError (List (Event α) × Session α)
  | session, [] => .ok ([], session)
  | session, command :: commands => do
    let (next, answer) ← session.exec command
    let (events, last) ← next.run commands
    return (⟨session, command, answer⟩ :: events, last)

/-- Commands that are carried out prolong the history. -/
theorem History.run {events more : List (Event α)} {session last : Session α}
    {commands : List (Command α)} (h : History events session)
    (hrun : session.run commands = .ok (more, last)) : History (events ++ more) last := by
  induction commands generalizing events session more with
  | nil =>
    obtain ⟨rfl, rfl⟩ := Prod.mk.inj (Except.ok.inj hrun)
    rwa [List.append_nil]
  | cons command commands ih =>
    obtain ⟨⟨next, answer⟩, hexec, hrun⟩ := bind_eq_ok_iff.1 hrun
    obtain ⟨⟨later, _⟩, hlater, hrun⟩ := bind_eq_ok_iff.1 hrun
    obtain ⟨rfl, rfl⟩ := Prod.mk.inj (Except.ok.inj hrun)
    -- the first command prolongs the history by one event, and the others go on from there
    have hlast := ih (h.step hexec) hlater
    rwa [List.append_assoc] at hlast

end Session

end ByteMatch
