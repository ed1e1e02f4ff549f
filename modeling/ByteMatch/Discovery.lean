/-!
# Discovery

Finds what can be reached from a start by following edges. What has been discovered is kept in a set
of the caller's choice, together with the order of discovery; what has been discovered but not yet
expanded waits on a stack, so that the last discovered element is expanded first.
-/

namespace ByteMatch.Discovery

variable {σ β : Type}

/-- Adds the elements of a list to the set and puts those that were new to it on the stack.
`insert` adds one element and tells whether it was new. -/
def enter (insert : σ → β → Bool × σ) : List β → σ → List β → σ × List β
  | [], seen, pending => (seen, pending)
  | x :: xs, seen, pending =>
    match insert seen x with
    | (true, seen) => enter insert xs seen (x :: pending)
    | (false, seen) => enter insert xs seen pending

/-- Expands the stack's top until the stack is empty, at most `fuel` times. No element is put on the
stack twice, so fuel for every element that can be discovered is enough. -/
def run (insert : σ → β → Bool × σ) (next : β → List β) : (fuel : Nat) → σ → List β → σ
  | 0, seen, _ => seen
  | _ + 1, seen, [] => seen
  | fuel + 1, seen, x :: pending =>
    match enter insert (next x) seen pending with
    | (seen, pending) => run insert next fuel seen pending

/-- The set of all that is reachable from `start`, which is discovered first. -/
def explore (insert : σ → β → Bool × σ) (next : β → List β) (fuel : Nat) (empty : σ) (start : β) :
    σ :=
  run insert next fuel (insert empty start).2 [start]

/-! ### What every insertion keeps, exploration keeps -/

theorem enter_keeps {insert : σ → β → Bool × σ} {P : σ → Prop}
    (h : ∀ seen x, P seen → P (insert seen x).2) (xs : List β) (seen : σ) (pending : List β)
    (hseen : P seen) : P (enter insert xs seen pending).1 := by
  induction xs generalizing seen pending with
  | nil => exact hseen
  | cons x xs ih =>
    have hx := h seen x hseen
    unfold enter
    split <;> next heq => exact ih _ _ (by simpa [heq] using hx)

theorem run_keeps {insert : σ → β → Bool × σ} {next : β → List β} {P : σ → Prop}
    (h : ∀ seen x, P seen → P (insert seen x).2) (fuel : Nat) (seen : σ) (pending : List β)
    (hseen : P seen) : P (run insert next fuel seen pending) := by
  induction fuel generalizing seen pending with
  | zero => exact hseen
  | succ fuel ih =>
    cases pending with
    | nil => exact hseen
    | cons x pending => exact ih _ _ (enter_keeps h _ _ _ hseen)

end ByteMatch.Discovery
