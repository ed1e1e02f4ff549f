import Mathlib.Data.List.Forall2
import ByteMatch.Calls
import ByteMatch.Proofs.Transparency

/-!
# Serving calls

Two servers are compared call by call. `SameOutcome` compares two computations: they give related
results, or the same fault; comparisons are put together along the computations
(`SameOutcome.bind`). What relates two servers at each call does so at any number of calls, and so
are the replies that they give (`serveAll_relates`); what each call keeps is kept by all of them
(`serveAll_keeps`).

For all that a context remembers there are three kinds of calls (`Context.serve_cases`): those that
leave it as it is, those that walk through its cache, and those that clear it.
-/

namespace ByteMatch

/-! ### Comparing computations -/

/-- **Two computations come out alike**: they give related results, or the same fault. -/
inductive SameOutcome {β γ : Type} (R : β → γ → Prop) : Except Fault β → Except Fault γ → Prop
  | ok {x : β} {y : γ} : R x y → SameOutcome R (.ok x) (.ok y)
  | fault (e : Fault) : SameOutcome R (.error e) (.error e)

namespace SameOutcome

variable {β γ δ ε : Type} {R : β → γ → Prop} {work : Except Fault β} {work' : Except Fault γ}

theorem refl (work : Except Fault β) : SameOutcome (· = ·) work work := by
  cases work with
  | ok x => exact .ok rfl
  | error e => exact .fault e

theorem symm (h : SameOutcome R work work') : SameOutcome (fun y x => R x y) work' work := by
  cases h with
  | ok hxy => exact .ok hxy
  | fault e => exact .fault e

/-- If the one gives a result, so does the other. -/
theorem exists_ok {x : β} (h : SameOutcome R (.ok x) work') : ∃ y, work' = .ok y ∧ R x y := by
  cases h with
  | ok hxy => exact ⟨_, rfl, hxy⟩

theorem imp {S : β → γ → Prop} (h : SameOutcome R work work') (himp : ∀ x y, R x y → S x y) :
    SameOutcome S work work' := by
  cases h with
  | ok hxy => exact .ok (himp _ _ hxy)
  | fault e => exact .fault e

theorem trans {S : γ → δ → Prop} {work'' : Except Fault δ} (h : SameOutcome R work work')
    (h' : SameOutcome S work' work'') : SameOutcome (fun x z => ∃ y, R x y ∧ S y z) work work'' := by
  cases h with
  | ok hxy =>
    cases h' with
    | ok hyz => exact .ok ⟨_, hxy, hyz⟩
  | fault e =>
    cases h' with
    | fault => exact .fault e

/-- What goes on alike from related results comes out alike. -/
theorem bind {S : δ → ε → Prop} {f : β → Except Fault δ} {g : γ → Except Fault ε}
    (h : SameOutcome R work work') (hrest : ∀ x y, R x y → SameOutcome S (f x) (g y)) :
    SameOutcome S (work >>= f) (work' >>= g) := by
  cases h with
  | ok hxy => exact hrest _ _ hxy
  | fault e => exact .fault e

theorem map {S : δ → ε → Prop} {f : β → δ} {g : γ → ε} (h : SameOutcome R work work')
    (hrest : ∀ x y, R x y → S (f x) (g y)) : SameOutcome S (f <$> work) (g <$> work') := by
  cases h with
  | ok hxy => exact .ok (hrest _ _ hxy)
  | fault e => exact .fault e

/-- One side may have something left to do where the other one is at its end. -/
theorem bind_right {S : β → δ → Prop} {g : γ → Except Fault δ} (h : SameOutcome R work work')
    (hrest : ∀ x y, R x y → SameOutcome S (.ok x) (g y)) : SameOutcome S work (work' >>= g) := by
  cases h with
  | ok hxy => exact hrest _ _ hxy
  | fault e => exact .fault e

theorem bind_left {S : δ → γ → Prop} {f : β → Except Fault δ} (h : SameOutcome R work work')
    (hrest : ∀ x y, R x y → SameOutcome S (f x) (.ok y)) : SameOutcome S (work >>= f) work' := by
  cases h with
  | ok hxy => exact hrest _ _ hxy
  | fault e => exact .fault e

end SameOutcome

variable {α : Type}

/-! ### Serving one call after the other -/

/-- **What relates two servers at each call relates them at any number of calls**, and so are their
replies. -/
theorem serveAll_relates {σ τ : Type} {serve : σ → Call α → Except Fault (Reply α × σ)}
    {serve' : τ → Call α → Except Fault (Reply α × τ)} {R : σ → τ → Prop}
    {Q : Reply α → Reply α → Prop}
    (hserve : ∀ state state' call, R state state' →
      SameOutcome (fun r r' => Q r.1 r'.1 ∧ R r.2 r'.2) (serve state call) (serve' state' call))
    {state : σ} {state' : τ} (h : R state state') (calls : List (Call α)) :
    SameOutcome (fun r r' => List.Forall₂ Q r.1 r'.1 ∧ R r.2 r'.2) (serveAll serve state calls)
      (serveAll serve' state' calls) := by
  induction calls generalizing state state' with
  | nil => exact .ok ⟨.nil, h⟩
  | cons call calls ih =>
    -- both servers answer this call, and are related again when the next one comes
    unfold serveAll
    refine (hserve state state' call h).bind ?_
    rintro ⟨reply, next⟩ ⟨reply', next'⟩ ⟨hreply, hnext⟩
    refine (ih hnext).bind ?_
    rintro ⟨replies, last⟩ ⟨replies', last'⟩ ⟨hreplies, hlast⟩
    exact .ok ⟨.cons hreply hreplies, hlast⟩

/-- **What every one of the calls keeps** is kept by all of them. -/
theorem serveAll_keeps {σ : Type} {serve : σ → Call α → Except Fault (Reply α × σ)}
    {P : σ → Prop} {calls : List (Call α)} {state last : σ} {replies : List (Reply α)}
    (hserve : ∀ call ∈ calls, ∀ state reply next, P state → serve state call = .ok (reply, next) →
      P next)
    (h : P state) (hall : serveAll serve state calls = .ok (replies, last)) : P last := by
  induction calls generalizing state replies with
  | nil =>
    obtain ⟨-, rfl⟩ := Prod.mk.inj (Except.ok.inj hall)
    exact h
  | cons call calls ih =>
    obtain ⟨⟨reply, next⟩, hcall, hall⟩ := bind_eq_ok_iff.1 hall
    obtain ⟨⟨later, _⟩, hlater, hall⟩ := bind_eq_ok_iff.1 hall
    obtain ⟨-, rfl⟩ := Prod.mk.inj (Except.ok.inj hall)
    -- this call keeps it, and the others begin with what it leaves
    have hnext := hserve call List.mem_cons_self state reply next h hcall
    exact ih (fun other hother => hserve other (List.mem_cons_of_mem _ hother)) hnext hlater

/-! ### What a call does to a context -/

/-- The automaton that a call walks through the cache. -/
def Call.walked? : Call α → Option (Snapshot α)
  | .traverse _ _ _ => none
  | .traverseCached snapshot _ _ => some snapshot
  | .matchValue matcher _ _ => if matcher.united = 0 then none else some matcher.snapshot
  | .stats => none
  | .clear => none

namespace Context

variable [DecidableEq α] {ctx ctx' : Context α} {call : Call α} {reply : Reply α}

/-- **A call leaves a context as it is, or walks through its cache, or clears it.** -/
theorem serve_cases (h : ctx.serve call = .ok (reply, ctx')) :
    ctx' = ctx ∨
    (∃ snapshot value incoming found, call.walked? = some snapshot ∧
      ctx.traverseCached snapshot value incoming = .ok (found, ctx')) ∨
    call = .clear ∧ ctx' = ctx.clear := by
  cases call with
  | traverse fa value incoming =>
    obtain ⟨found, -, h⟩ := bind_eq_ok_iff.1 h
    obtain ⟨-, rfl⟩ := Prod.mk.inj (Except.ok.inj h)
    exact .inl rfl
  | traverseCached snapshot value incoming =>
    obtain ⟨⟨found, last⟩, hwalk, h⟩ := bind_eq_ok_iff.1 h
    obtain ⟨-, rfl⟩ := Prod.mk.inj (Except.ok.inj h)
    exact .inr (.inl ⟨snapshot, value, incoming, found, rfl, hwalk⟩)
  | matchValue matcher value incoming =>
    obtain ⟨⟨found, last⟩, hwalk, h⟩ := bind_eq_ok_iff.1 h
    obtain ⟨-, rfl⟩ := Prod.mk.inj (Except.ok.inj h)
    -- a value is scanned without the context, so it is about the walk behind
    unfold Matcher.matchValue at hwalk
    split at hwalk
    · -- no pattern is in the automaton
      obtain ⟨-, rfl⟩ := Prod.mk.inj (Except.ok.inj hwalk)
      exact .inl rfl
    · next hunited => exact .inr (.inl ⟨matcher.snapshot, value, _, found, if_neg hunited, hwalk⟩)
  | stats =>
    obtain ⟨-, rfl⟩ := Prod.mk.inj (Except.ok.inj h)
    exact .inl rfl
  | clear =>
    obtain ⟨-, rfl⟩ := Prod.mk.inj (Except.ok.inj h)
    exact .inr (.inr ⟨rfl, rfl⟩)

end Context

end ByteMatch
