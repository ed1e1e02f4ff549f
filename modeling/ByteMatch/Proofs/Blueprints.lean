import ByteMatch.Proofs.Relabelling
import ByteMatch.Proofs.Rows
import ByteMatch.Graph

/-!
# Blueprints of automata

A union is made by exploring a space of names: what is discovered gets a number, and the state of
that number does what its name says. `Blueprint` is the part of this that does not depend on numbers:
the names, where bytes and epsilon edges lead them, and what payloads they carry. The states that are
built from a blueprint (`Blueprint.nodes`) depend on the names only up to renaming:

* `Blueprint.Relabels` says that a map between the names of two blueprints carries the one to the
  other and keeps the names apart;
* `Blueprint.Relabels.nodes_eq`: two such blueprints have the same states, number by number;
* `Blueprint.Builds` leaves out how long the exploration was allowed to go on, as long as that was
  enough, and `Blueprint.Relabels.builds` carries it over.

So two automata are shown to be equal by finding one blueprint that can be relabelled to both.
-/

namespace ByteMatch

/-- A space of names, to be explored and numbered. -/
structure Blueprint (β α : Type) where
  /-- The name of the first state. -/
  start : β
  /-- The name at which nothing is left to be found. It gets no state. -/
  dead : β
  /-- Where each byte of the alphabet leads. -/
  after : β → UInt8 → β
  /-- Where the epsilon edges lead. -/
  epsilons : β → List β
  /-- The payloads, perhaps with repetitions. -/
  payloads : β → List α

namespace Blueprint

variable {α β γ : Type} [DecidableEq β] [DecidableEq γ]

/-! ### What is built -/

/-- Where each byte leads a name, packed. -/
def steps (plan : Blueprint β α) (x : β) : Runs β :=
  Runs.ofRow (alphabet.map (plan.after x))

/-- All that follows a name: first by bytes, then by epsilon edges. -/
def next (plan : Blueprint β α) (x : β) : List β :=
  ((plan.steps x).values ++ plan.epsilons x).filter (· ≠ plan.dead)

/-- The names discovered in at most `fuel` rounds. -/
def numbering (plan : Blueprint β α) (fuel : Nat) : Numbering β :=
  Discovery.explore Numbering.insert plan.next fuel Numbering.empty plan.start

/-- The number of the state for a name. -/
def stateFor (plan : Blueprint β α) (numbering : Numbering β) (x : β) : Option StateId :=
  if x = plan.dead then none else numbering.index? x

variable [DecidableEq α]

/-- What the state for a name does. -/
def node (plan : Blueprint β α) (numbering : Numbering β) (x : β) : Node α where
  table := {
    steps := (plan.steps x).mapValues (plan.stateFor numbering)
    epsilons := (plan.epsilons x).filterMap (plan.stateFor numbering) }
  payloads := (plan.payloads x).eraseDups

/-- The states for the names discovered in at most `fuel` rounds. -/
def nodes (plan : Blueprint β α) (fuel : Nat) : Array (Node α) :=
  (plan.numbering fuel).items.map (plan.node (plan.numbering fuel))

/-! ### How long to explore -/

variable {plan : Blueprint β α} {plan' : Blueprint γ α} {fuel fuel' : Nat}
  {states states' : Array (Node α)}

/-- More than `fuel` rounds discover nothing else. -/
def Settled (plan : Blueprint β α) (fuel : Nat) : Prop :=
  ∀ more, plan.numbering (fuel + more) = plan.numbering fuel

omit [DecidableEq α] in
theorem Settled.numbering_eq (h : plan.Settled fuel) (h' : plan.Settled fuel') :
    plan.numbering fuel = plan.numbering fuel' :=
  calc plan.numbering fuel
      = plan.numbering (fuel + fuel') := (h fuel').symm
    _ = plan.numbering (fuel' + fuel) := by rw [Nat.add_comm]
    _ = plan.numbering fuel' := h' fuel

/-- **The states are those of the blueprint**, all of them. -/
def Builds (plan : Blueprint β α) (states : Array (Node α)) : Prop :=
  ∃ fuel, plan.Settled fuel ∧ states = plan.nodes fuel

/-- A blueprint has one array of states. -/
theorem Builds.unique (h : plan.Builds states) (h' : plan.Builds states') : states = states' := by
  obtain ⟨fuel, hsettled, rfl⟩ := h
  obtain ⟨fuel', hsettled', rfl⟩ := h'
  -- both have explored to the end, so it does not matter how long
  rw [nodes, hsettled.numbering_eq hsettled']
  rfl

/-! ### Relabelling -/

/-- **`φ` carries `plan` to `plan'`**, as far as names are `Valid`: it keeps these apart, and what
follows a name, and the payloads that it carries, are carried along. -/
structure Relabels (φ : β → γ) (Valid : β → Prop) (plan : Blueprint β α) (plan' : Blueprint γ α) :
    Prop where
  keepsApart : Numbering.KeepsApart φ Valid
  valid_start : Valid plan.start
  valid_dead : Valid plan.dead
  valid_after : ∀ x, Valid x → ∀ byte, InAlphabet byte → Valid (plan.after x byte)
  valid_epsilons : ∀ x, Valid x → ∀ y ∈ plan.epsilons x, Valid y
  start_eq : plan'.start = φ plan.start
  dead_eq : plan'.dead = φ plan.dead
  after_eq : ∀ x, Valid x → ∀ byte, InAlphabet byte →
    plan'.after (φ x) byte = φ (plan.after x byte)
  epsilons_eq : ∀ x, Valid x → plan'.epsilons (φ x) = (plan.epsilons x).map φ
  payloads_eq : ∀ x, Valid x → (plan'.payloads (φ x)).eraseDups = (plan.payloads x).eraseDups

section Relabel

variable {φ : β → γ} {Valid : β → Prop} {x : β}

omit [DecidableEq β] [DecidableEq γ] in
/-- Where the bytes lead is a valid name, place by place. -/
private theorem Relabels.valid_row (h : Relabels φ Valid plan plan') (hx : Valid x) :
    ∀ y ∈ alphabet.map (plan.after x), Valid y := by
  intro y hy
  obtain ⟨byte, hbyte, rfl⟩ := List.mem_map.1 hy
  exact h.valid_after x hx byte (mem_alphabet.1 hbyte)

omit [DecidableEq γ] in
private theorem Relabels.valid_steps (h : Relabels φ Valid plan plan') (hx : Valid x) :
    ∀ y ∈ (plan.steps x).values, Valid y :=
  fun y hy => h.valid_row hx y (Runs.mem_of_mem_values_ofRow hy)

/-- The runs end at the same places: there `φ` would have to make two valid names equal. -/
theorem Relabels.steps_eq (h : Relabels φ Valid plan plan') (hx : Valid x) :
    plan'.steps (φ x) = (plan.steps x).map fun run => (run.1, φ run.2) := by
  have hrow : alphabet.map (plan'.after (φ x)) = (alphabet.map (plan.after x)).map φ := by
    rw [List.map_map]
    apply List.map_congr_left
    intro byte hbyte
    exact h.after_eq x hx byte (mem_alphabet.1 hbyte)
  have hvalid := h.valid_row hx
  rw [steps, steps, hrow]
  -- of the row, no more is needed than that all in it is valid
  generalize alphabet.map (plan.after x) = row at hvalid ⊢
  have hapart : ∀ y ∈ (Runs.places 0 row).values, ∀ z ∈ (Runs.places 0 row).values,
      φ y = φ z → y = z := by
    rw [Runs.values_places]
    exact fun y hy z hz => h.keepsApart y z (hvalid y hy) (hvalid z hz)
  calc Runs.ofRow (row.map φ)
      = Runs.mapValues φ (Runs.places 0 row) := by rw [Runs.ofRow, Runs.places_map, Runs.mapValues]
    _ = (Runs.ofRow row).map fun run => (run.1, φ run.2) := Runs.compact_map hapart

omit [DecidableEq β] [DecidableEq γ] in
theorem Relabels.eq_dead_iff (h : Relabels φ Valid plan plan') (hx : Valid x) :
    φ x = plan'.dead ↔ x = plan.dead := by
  rw [h.dead_eq]
  exact ⟨h.keepsApart x plan.dead hx h.valid_dead, congrArg φ⟩

/-- What follows a name is carried along. -/
theorem Relabels.next_eq (h : Relabels φ Valid plan plan') (hx : Valid x) :
    plan'.next (φ x) = (plan.next x).map φ := by
  have hvalues : (plan'.steps (φ x)).values = (plan.steps x).values.map φ := by
    rw [h.steps_eq hx, Runs.values, Runs.values, List.map_map, List.map_map]
    rfl
  rw [next, next, hvalues, h.epsilons_eq x hx, ← List.map_append, List.filter_map]
  -- the dead name is left out on both sides
  apply congrArg (List.map φ)
  apply List.filter_congr
  intro y hy
  have hvalid : Valid y := by
    rcases List.mem_append.1 hy with hy | hy
    · exact h.valid_steps hx y hy
    · exact h.valid_epsilons x hx y hy
  rw [Function.comp_apply, decide_eq_decide, ne_eq, ne_eq, h.eq_dead_iff hvalid]

omit [DecidableEq γ] in
private theorem Relabels.valid_next (h : Relabels φ Valid plan plan') (hx : Valid x) :
    ∀ y ∈ plan.next x, Valid y := by
  intro y hy
  rcases List.mem_append.1 (List.mem_filter.1 hy).1 with hy | hy
  · exact h.valid_steps hx y hy
  · exact h.valid_epsilons x hx y hy

/-- **The discoveries are carried along**, number by number. -/
theorem Relabels.renames (h : Relabels φ Valid plan plan') (fuel : Nat) :
    Numbering.Renames φ (plan.numbering fuel) (plan'.numbering fuel) ∧
      ∀ x ∈ (plan.numbering fuel).items, Valid x := by
  -- two explorations of which the one goes along the images of the other
  have hrelabels : Discovery.Relabels φ Valid plan.next plan'.next :=
    ⟨h.keepsApart, fun _ hx => h.valid_next hx, fun _ hx => h.next_eq hx⟩
  rw [numbering, numbering, h.start_eq]
  exact Discovery.explore_renames hrelabels h.valid_start fuel

private theorem Relabels.stateFor_eq (h : Relabels φ Valid plan plan') (fuel : Nat) (hx : Valid x) :
    plan'.stateFor (plan'.numbering fuel) (φ x) = plan.stateFor (plan.numbering fuel) x := by
  obtain ⟨hrenames, hvalid⟩ := h.renames fuel
  simp only [stateFor, h.eq_dead_iff hx, hrenames.index?_eq h.keepsApart hvalid hx]

/-- The state for a name does what the state for its image does. -/
theorem Relabels.node_eq (h : Relabels φ Valid plan plan') (fuel : Nat) (hx : Valid x) :
    plan'.node (plan'.numbering fuel) (φ x) = plan.node (plan.numbering fuel) x := by
  -- a name and its image have one number, so the runs lead to the same states
  have hsteps : (plan'.steps (φ x)).mapValues (plan'.stateFor (plan'.numbering fuel)) =
      (plan.steps x).mapValues (plan.stateFor (plan.numbering fuel)) := by
    rw [h.steps_eq hx, Runs.mapValues, Runs.mapValues, List.map_map]
    apply congrArg Runs.compact
    apply List.map_congr_left
    intro run hrun
    have hvalid : Valid run.2 := h.valid_steps hx _ (List.mem_map_of_mem hrun)
    simp only [Function.comp_apply, h.stateFor_eq fuel hvalid]
  have hepsilons : (plan'.epsilons (φ x)).filterMap (plan'.stateFor (plan'.numbering fuel)) =
      (plan.epsilons x).filterMap (plan.stateFor (plan.numbering fuel)) := by
    rw [h.epsilons_eq x hx, List.filterMap_map]
    apply List.filterMap_congr
    intro y hy
    exact h.stateFor_eq fuel (h.valid_epsilons x hx y hy)
  rw [node, node, hsteps, hepsilons, h.payloads_eq x hx]

/-- **Relabelled blueprints have the same states.** -/
theorem Relabels.nodes_eq (h : Relabels φ Valid plan plan') (fuel : Nat) :
    plan'.nodes fuel = plan.nodes fuel := by
  obtain ⟨hrenames, hvalid⟩ := h.renames fuel
  apply Array.toList_inj.1
  rw [nodes, nodes, Array.toList_map, Array.toList_map, hrenames, List.map_map]
  apply List.map_congr_left
  intro x hx
  exact h.node_eq fuel (hvalid x (Array.mem_toList_iff.1 hx))

/-- If the images are explored to the end, then so are the names. -/
theorem Relabels.settled (h : Relabels φ Valid plan plan') (hsettled : plan'.Settled fuel) :
    plan.Settled fuel := by
  intro more
  -- before and after the further rounds, the names are those of the same images
  obtain ⟨hrenames, hvalid⟩ := h.renames fuel
  obtain ⟨hrenames', hvalid'⟩ := h.renames (fuel + more)
  rw [hsettled more] at hrenames'
  exact hrenames'.unique hrenames h.keepsApart hvalid' hvalid

theorem Relabels.builds (h : Relabels φ Valid plan plan') (hbuilds : plan'.Builds states) :
    plan.Builds states := by
  obtain ⟨fuel, hsettled, rfl⟩ := hbuilds
  exact ⟨fuel, h.settled hsettled, h.nodes_eq fuel⟩

end Relabel

end Blueprint

end ByteMatch
