import ByteMatch.Pattern
import ByteMatch.Proofs.Traversal

/-!
# What every builder keeps

The graph of a pattern begins with the matched state, and grows by states with steps and by states
that keep to themselves. So what holds of the matched state, and is kept by both ways of putting a
state in front, holds of the graph of every pattern (`Pattern.graph_keeps`), however its builder
branches and recurses.
-/

namespace ByteMatch

variable {α : Type}

/-- **`P` is kept by all building**, whatever the steps of a new state. -/
structure Graph.KeptByBuilding (P : Graph α → Prop) : Prop where
  accept : ∀ payload, P (Graph.accept payload)
  prependSteps : ∀ g default entries, P g → P (g.prependSteps default entries)
  prependStar : ∀ g, P g → P g.prependStar

variable {P : Graph α → Prop} {g : Graph α}

namespace Graph.KeptByBuilding

theorem prependEnd (h : KeptByBuilding P) (hg : P g) : P g.prependEnd := h.prependSteps g _ _ hg

theorem prependBytes (h : KeptByBuilding P) (bytes : Bytes) (hg : P g) :
    P (g.prependBytes bytes) := by
  induction bytes with
  | nil => exact hg
  | cons b bytes ih => exact h.prependSteps _ _ _ ih

theorem prependToken (h : KeptByBuilding P) (token : Token) (hg : P g) :
    P (Glob.prependToken g token) := by
  cases token with
  | byte b => exact h.prependSteps _ _ _ hg
  | star => exact h.prependStar g hg

theorem prependTokens (h : KeptByBuilding P) (glob : Glob) (hg : P g) :
    P (glob.foldr (fun token g => Glob.prependToken g token) g) := by
  induction glob with
  | nil => exact hg
  | cons token glob ih => exact h.prependToken token ih

/-- Branches keep what each of them keeps. -/
theorem prependBranches (target : Graph α → List Bytes → Graph α × StateId)
    (htarget : ∀ g tails, P g → P (target g tails).1) (list : List (UInt8 × List Bytes))
    (hg : P g) : P (Graph.prependBranches target list g).1 := by
  induction list generalizing g with
  | nil => exact hg
  | cons branch rest ih => exact ih (htarget g branch.2 hg)

theorem prependTree (h : KeptByBuilding P) (success : StateId) (depth : Nat)
    (remainders : List Bytes) (hg : P g) :
    P (Exclusion.prependTree success depth remainders g) := by
  induction depth generalizing remainders g with
  | zero => exact h.prependSteps g _ _ hg
  | succ depth ih =>
    -- the branches of a tree are trees again, put in front one after the other
    have hbranches := prependBranches
      (fun g tails => (Exclusion.prependTree success depth tails g,
        (Exclusion.prependTree success depth tails g).start))
      (fun g tails hg => ih tails hg) (branches remainders) hg
    exact h.prependSteps _ _ _ hbranches

theorem prependChoice (h : KeptByBuilding P) (target : StateId) (depth : Nat)
    (choices : List Bytes) (hg : P g) : P (Caseless.prependChoice target depth choices g) := by
  induction depth generalizing choices g with
  | zero => exact hg
  | succ depth ih =>
    refine h.prependSteps _ _ _ (prependBranches _ (fun g tails hg => ?_) _ hg)
    -- a choice that ends here puts nothing in front
    split
    · exact hg
    · exact ih tails hg

theorem prependText (h : KeptByBuilding P) (cases : CaseMap) (text : List Char) (hg : P g) :
    P (text.foldr (Caseless.prependChar cases) g) := by
  induction text with
  | nil => exact hg
  | cons c text ih => exact h.prependChoice _ _ _ ih

end Graph.KeptByBuilding

/-- **The graph of every pattern has what building keeps.** -/
theorem Pattern.graph_keeps (h : Graph.KeptByBuilding P) {pattern : Pattern} {payload : α}
    {fa : Automaton α} (hfa : pattern.automaton payload = .ok fa) : P fa.toGraph := by
  have haccept := h.accept payload
  cases pattern with
  | exactly bytes =>
    obtain rfl := Except.ok.inj hfa
    exact h.prependBytes bytes (h.prependEnd haccept)
  | beginning bytes =>
    obtain rfl := Except.ok.inj hfa
    exact h.prependBytes bytes (h.prependSteps _ _ _ haccept)
  | shell pattern =>
    obtain rfl := Except.ok.inj hfa
    exact h.prependTokens _ (h.prependEnd haccept)
  | wildcard pattern =>
    -- a pattern that cannot be read has no automaton
    obtain ⟨glob, -, rfl⟩ := map_eq_ok_iff.1 hfa
    exact h.prependTokens glob (h.prependEnd haccept)
  | caseless text =>
    obtain rfl := Except.ok.inj hfa
    exact h.prependText _ text (h.prependEnd haccept)
  | noneOf excluded =>
    obtain rfl := Except.ok.inj hfa
    exact h.prependTree _ _ excluded haccept

end ByteMatch
