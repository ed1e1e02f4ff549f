import ByteMatch.Session.Command

/-!
# Sessions

A session holds named automata, contexts and matchers, and is changed by one command at a time. It
hands out the identities under which automata are published, counting up, so that every publication
has an identity of its own. A command that breaks a rule of the automata it works on is a fault and
leaves no session behind.
-/

namespace ByteMatch

variable {α : Type}

/-! ### Names -/

/-- Things by their names. -/
abbrev Names (β : Type) := List (String × β)

/-- Gives the name to `x`, whatever had it before. -/
def Names.bind {β : Type} (names : Names β) (name : String) (x : β) : Names β :=
  (name, x) :: names.filter fun entry => entry.1 ≠ name

/-- Why a command was not carried out. -/
inductive SessionError where
  /-- A name stands for nothing. -/
  | unbound (name : String)
  /-- A rule was broken on the way. -/
  | fault (fault : Fault)
deriving DecidableEq, Repr

/-- Named automata, contexts and matchers. -/
structure Session (α : Type) where
  /-- The next identity to be handed out. -/
  nextId : Nat
  automata : Names (Snapshot α)
  contexts : Names (Context α)
  matchers : Names (Matcher α)

namespace Session

/-- Nothing is named. -/
def empty : Session α := ⟨0, [], [], []⟩

/-! ### Looking up and naming -/

/-- What a name stands for. -/
def resolve {β : Type} (names : Names β) (name : String) : Except SessionError β :=
  match names.lookup name with
  | none => .error (.unbound name)
  | some x => .ok x

/-- The outcome of work in which rules may be broken. -/
def lift {β : Type} : Except Fault β → Except SessionError β
  | .ok x => .ok x
  | .error f => .error (.fault f)

/-- Names an automaton that is published already. -/
def bindSnapshot (session : Session α) (name : String) (snapshot : Snapshot α) : Session α :=
  { session with
    nextId := max session.nextId (snapshot.id + 1)
    automata := session.automata.bind name snapshot }

/-- Names a context. -/
def bindContext (session : Session α) (name : String) (ctx : Context α) : Session α :=
  { session with contexts := session.contexts.bind name ctx }

/-- Names a matcher. -/
def bindMatcher (session : Session α) (name : String) (matcher : Matcher α) : Session α :=
  { session with
    nextId := max session.nextId (matcher.snapshot.id + 1)
    matchers := session.matchers.bind name matcher }

/-! ### Carrying out commands -/

variable [DecidableEq α]

/-- The automaton that comes from a source. Unless it is a copy, it is published under the next
identity. -/
def build (session : Session α) :
    Source α → Except SessionError (Except PatternError (Snapshot α))
  | .empty => .ok (.ok (Snapshot.first session.nextId Automaton.empty))
  | .pattern pattern payload =>
    .ok (Snapshot.first session.nextId <$> pattern.automaton payload)
  | .union left right => do
    let a ← resolve session.automata left
    let b ← resolve session.automata right
    return .ok (a.extend session.nextId b.automaton)
  | .copy name => Except.ok <$> resolve session.automata name
  | .drafts drafts start => do
    let fa ← lift (Automaton.ofDrafts drafts start)
    return .ok (Snapshot.first session.nextId fa)
  | .current name => do
    let matcher ← resolve session.matchers name
    return .ok matcher.snapshot

/-- Walks values one after the other with the same context, and notes the state of the cache after
each of them. -/
def overValues (walk : Context α → Bytes → Except Fault (List α × Context α)) :
    Context α → List Bytes → Except Fault (List (List α × Stats) × Context α)
  | ctx, [] => .ok ([], ctx)
  | ctx, value :: values => do
    let (found, ctx) ← walk ctx value
    let (results, last) ← overValues walk ctx values
    return ((found, ctx.stats) :: results, last)

/-- Walks values with a named context. -/
def walkIn (session : Session α) (name : String) (values : List Bytes)
    (walk : Context α → Bytes → Except Fault (List α × Context α)) :
    Except SessionError (Session α × Answer α) := do
  let ctx ← resolve session.contexts name
  let (results, ctx) ← lift (overValues walk ctx values)
  return (session.bindContext name ctx, .foundIn results)

/-- Carries out a command. -/
def exec (session : Session α) : Command α → Except SessionError (Session α × Answer α)
  | .define name source => do
    match ← session.build source with
    | .error e => return (session, .refused e)
    | .ok snapshot => return (session.bindSnapshot name snapshot, .published snapshot)
  | .openContext name config =>
    let ctx := Context.ofConfig config
    .ok (session.bindContext name ctx, .context ctx)
  | .openMatcher name =>
    let matcher := Matcher.empty session.nextId
    .ok (session.bindMatcher name matcher, .matcher matcher none)
  | .addPattern name pattern payload => do
    let matcher ← resolve session.matchers name
    match matcher.add session.nextId pattern payload with
    | .error e => return (session, .matcher matcher (some e))
    | .ok matcher => return (session.bindMatcher name matcher, .matcher matcher none)
  | .addAutomaton name automaton => do
    let matcher ← resolve session.matchers name
    let snapshot ← resolve session.automata automaton
    let matcher := matcher.addAutomaton session.nextId snapshot.automaton
    return (session.bindMatcher name matcher, .matcher matcher none)
  | .traverse automaton values incoming => do
    let snapshot ← resolve session.automata automaton
    let results ← lift <|
      values.mapM fun v => snapshot.automaton.traverse Config.default.threshold v incoming
    return (session, .found results)
  | .traverseIn name automaton values incoming => do
    let snapshot ← resolve session.automata automaton
    session.walkIn name values fun ctx v =>
      (·, ctx) <$> ctx.traverse snapshot.automaton v incoming
  | .traverseCached name automaton values incoming => do
    let snapshot ← resolve session.automata automaton
    session.walkIn name values fun ctx v => ctx.traverseCached snapshot v incoming
  | .matchValues name matcher values incoming => do
    let matcher ← resolve session.matchers matcher
    session.walkIn name values fun ctx v => matcher.matchValue ctx v incoming
  | .clear name => do
    let ctx ← resolve session.contexts name
    return (session.bindContext name ctx.clear, .context ctx.clear)

end Session

end ByteMatch
