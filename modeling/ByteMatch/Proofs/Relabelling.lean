import ByteMatch.Numbering
import ByteMatch.Proofs.Exploration

/-!
# Exploring under other names

What an exploration numbers, and in which order, does not depend on what the elements are, only on
which of them follow which. If `φ` carries the edges `next` to the edges `next'` and keeps apart all
that can come up on the way (`Discovery.Relabels`), then the exploration along `next'` discovers the
images of what the exploration along `next` discovers, one after the other
(`Discovery.explore_renames`).

Both explorations are followed round by round. `Discovery.InStep` is what holds between two rounds:
the sets and the stacks of the two are images of each other. The one thing to be seen is that the two
sets agree on what is new, and there the elements have to be kept apart.
-/

namespace ByteMatch

variable {β γ : Type} [DecidableEq β] [DecidableEq γ]

/-! ### Renamed numberings -/

namespace Numbering

variable {φ : β → γ} {Valid : β → Prop} {numbering numbering' : Numbering β}
  {renamed : Numbering γ}

/-- `renamed` numbers the images of what `numbering` numbers, in the same order. -/
def Renames (φ : β → γ) (numbering : Numbering β) (renamed : Numbering γ) : Prop :=
  renamed.items.toList = numbering.items.toList.map φ

/-- `φ` keeps apart all elements that are `Valid`. -/
def KeepsApart (φ : β → γ) (Valid : β → Prop) : Prop :=
  ∀ x y, Valid x → Valid y → φ x = φ y → x = y

omit [DecidableEq β] [DecidableEq γ] in
theorem Renames.getElem?_eq (h : Renames φ numbering renamed) (i : Nat) :
    renamed.items[i]? = numbering.items[i]?.map φ := by
  rw [← Array.getElem?_toList, h, List.getElem?_map, Array.getElem?_toList]

omit [DecidableEq β] [DecidableEq γ] in
theorem Renames.mem_iff (h : Renames φ numbering renamed) (hφ : KeepsApart φ Valid)
    (hvalid : ∀ x ∈ numbering.items, Valid x) {x : β} (hx : Valid x) :
    φ x ∈ renamed.items ↔ x ∈ numbering.items := by
  rw [← Array.mem_toList_iff, h, List.mem_map, ← Array.mem_toList_iff]
  refine ⟨?_, fun hmem => ⟨x, hmem, rfl⟩⟩
  rintro ⟨y, hy, heq⟩
  -- an element with the same image is the same element
  have hyx : y = x := hφ y x (hvalid y (Array.mem_toList_iff.1 hy)) hx heq
  rwa [← hyx]

/-- The numbers stay. -/
theorem Renames.index?_eq (h : Renames φ numbering renamed) (hφ : KeepsApart φ Valid)
    (hvalid : ∀ x ∈ numbering.items, Valid x) {x : β} (hx : Valid x) :
    renamed.index? (φ x) = numbering.index? x := by
  apply Option.ext
  intro i
  -- the number of an element is where it stands, and no other element has its image
  rw [index?_eq_some_iff, index?_eq_some_iff, h.getElem?_eq, Option.map_eq_some_iff]
  refine ⟨?_, fun hi => ⟨x, hi, rfl⟩⟩
  rintro ⟨y, hy, heq⟩
  have hyx : y = x := hφ y x (hvalid y (Array.mem_of_getElem? hy)) hx heq
  rwa [← hyx]

omit [DecidableEq β] [DecidableEq γ] in
/-- What is renamed to the same numbering is the same. -/
theorem Renames.unique (h : Renames φ numbering renamed) (h' : Renames φ numbering' renamed)
    (hφ : KeepsApart φ Valid) (hvalid : ∀ x ∈ numbering.items, Valid x)
    (hvalid' : ∀ x ∈ numbering'.items, Valid x) : numbering = numbering' := by
  have hitems : numbering.items = numbering'.items := by
    apply Array.ext_getElem?
    intro i
    -- both have the same image at place `i`, and images are kept apart
    have hi : numbering.items[i]?.map φ = numbering'.items[i]?.map φ := by
      rw [← h.getElem?_eq, ← h'.getElem?_eq]
    cases hx : numbering.items[i]? with
    | none =>
      rw [hx, Option.map_none] at hi
      exact (Option.map_eq_none_iff.1 hi.symm).symm
    | some x =>
      rw [hx, Option.map_some] at hi
      obtain ⟨y, hy, heq⟩ := Option.map_eq_some_iff.1 hi.symm
      have hyx : y = x :=
        hφ y x (hvalid' y (Array.mem_of_getElem? hy)) (hvalid x (Array.mem_of_getElem? hx)) heq
      rw [hy, hyx]
  cases numbering
  cases numbering'
  simp only [mk.injEq]
  exact hitems

/-- An element is new where its image is. -/
theorem Renames.insert (h : Renames φ numbering renamed) (hφ : KeepsApart φ Valid)
    (hvalid : ∀ x ∈ numbering.items, Valid x) {x : β} (hx : Valid x) :
    (renamed.insert (φ x)).1 = (numbering.insert x).1 ∧
      Renames φ (numbering.insert x).2 (renamed.insert (φ x)).2 := by
  have hmem : φ x ∈ renamed.items ↔ x ∈ numbering.items := h.mem_iff hφ hvalid hx
  refine ⟨?_, ?_⟩
  · rw [Bool.eq_iff_iff, insert_fst, insert_fst, hmem]
  · unfold Renames
    rw [toList_insert, toList_insert]
    by_cases hold : x ∈ numbering.items
    · rw [if_pos (hmem.2 hold), if_pos hold]
      exact h
    · rw [if_neg (fun hin => hold (hmem.1 hin)), if_neg hold, h, List.map_append, List.map_singleton]

omit [DecidableEq γ] in
theorem valid_insert (hvalid : ∀ x ∈ numbering.items, Valid x) {x : β} (hx : Valid x) :
    ∀ y ∈ (numbering.insert x).2.items, Valid y := by
  intro y hy
  rw [← Array.mem_toList_iff, toList_insert] at hy
  split at hy
  · exact hvalid y (Array.mem_toList_iff.1 hy)
  · rcases List.mem_append.1 hy with hy | hy
    · exact hvalid y (Array.mem_toList_iff.1 hy)
    · rw [List.mem_singleton.1 hy]
      exact hx

end Numbering

/-! ### Two explorations in step -/

namespace Discovery

open ByteMatch.Numbering (Renames KeepsApart)

variable {φ : β → γ} {Valid : β → Prop} {next : β → List β} {next' : γ → List γ}
  {seen : Numbering β} {seen' : Numbering γ} {pending : List β} {pending' : List γ}

/-- **`φ` carries the edges `next` to the edges `next'`**, as far as elements are `Valid`, and these
are kept apart. -/
structure Relabels (φ : β → γ) (Valid : β → Prop) (next : β → List β) (next' : γ → List γ) :
    Prop where
  keepsApart : KeepsApart φ Valid
  valid : ∀ x, Valid x → ∀ y ∈ next x, Valid y
  next_eq : ∀ x, Valid x → next' (φ x) = (next x).map φ

/-- **Two explorations are in step**: what the second one has discovered, and what waits on its
stack, are the images of what the first one has. -/
structure InStep (φ : β → γ) (Valid : β → Prop) (seen : Numbering β) (pending : List β)
    (seen' : Numbering γ) (pending' : List γ) : Prop where
  renames : Renames φ seen seen'
  pending_eq : pending' = pending.map φ
  seen_valid : ∀ x ∈ seen.items, Valid x
  pending_valid : ∀ x ∈ pending, Valid x

/-- One round of discoveries keeps step. -/
theorem InStep.enter (h : InStep φ Valid seen pending seen' pending') (hφ : KeepsApart φ Valid)
    (xs : List β) (hxs : ∀ x ∈ xs, Valid x) :
    InStep φ Valid (Discovery.enter Numbering.insert xs seen pending).1
      (Discovery.enter Numbering.insert xs seen pending).2
      (Discovery.enter Numbering.insert (xs.map φ) seen' pending').1
      (Discovery.enter Numbering.insert (xs.map φ) seen' pending').2 := by
  induction xs generalizing seen pending seen' pending' with
  | nil => exact h
  | cons x xs ih =>
    have hx : Valid x := hxs x List.mem_cons_self
    have hrest : ∀ y ∈ xs, Valid y := fun y hy => hxs y (List.mem_cons_of_mem x hy)
    obtain ⟨hnew, hrenames⟩ := h.renames.insert hφ h.seen_valid hx
    have hvalid := Numbering.valid_insert h.seen_valid hx
    rw [List.map_cons, Discovery.enter, Discovery.enter]
    -- both insertions tell the same, so both go the same way
    cases hinsert : seen.insert x with
    | mk new next =>
      cases hinsert' : seen'.insert (φ x) with
      | mk new' next' =>
        rw [hinsert, hinsert'] at hnew hrenames
        rw [hinsert] at hvalid
        dsimp only at hnew hrenames hvalid
        subst hnew
        cases new' with
        | true =>
          refine ih ⟨hrenames, ?_, hvalid, ?_⟩ hrest
          · rw [h.pending_eq, List.map_cons]
          · intro y hy
            rcases List.mem_cons.1 hy with rfl | hy
            · exact hx
            · exact h.pending_valid y hy
        | false => exact ih ⟨hrenames, h.pending_eq, hvalid, h.pending_valid⟩ hrest

/-- Explorations that begin in step end in step. -/
theorem InStep.run (hrelabels : Relabels φ Valid next next') (fuel : Nat)
    (h : InStep φ Valid seen pending seen' pending') :
    Renames φ (Discovery.run Numbering.insert next fuel seen pending)
        (Discovery.run Numbering.insert next' fuel seen' pending') ∧
      ∀ x ∈ (Discovery.run Numbering.insert next fuel seen pending).items, Valid x := by
  induction fuel generalizing seen pending seen' pending' with
  | zero => exact ⟨h.renames, h.seen_valid⟩
  | succ fuel ih =>
    obtain rfl := h.pending_eq
    cases pending with
    | nil => exact ⟨h.renames, h.seen_valid⟩
    | cons x pending =>
      have hx : Valid x := h.pending_valid x List.mem_cons_self
      -- the element on top leaves the stack, and its successors are entered
      have hrest : InStep φ Valid seen pending seen' (pending.map φ) :=
        ⟨h.renames, rfl, h.seen_valid, fun y hy => h.pending_valid y (List.mem_cons_of_mem x hy)⟩
      have hentered := hrest.enter hrelabels.keepsApart (next x) (hrelabels.valid x hx)
      rw [← hrelabels.next_eq x hx] at hentered
      exact ih hentered

/-- **Exploring under other names** discovers the same elements in the same order. -/
theorem explore_renames (h : Relabels φ Valid next next') {start : β} (hstart : Valid start)
    (fuel : Nat) :
    Renames φ (explore Numbering.insert next fuel Numbering.empty start)
        (explore Numbering.insert next' fuel Numbering.empty (φ start)) ∧
      ∀ x ∈ (explore Numbering.insert next fuel Numbering.empty start).items, Valid x := by
  have hnone : ∀ x ∈ (Numbering.empty : Numbering β).items, Valid x :=
    fun x hx => absurd hx (Array.not_mem_empty x)
  have hempty : Renames φ (Numbering.empty : Numbering β) (Numbering.empty : Numbering γ) := rfl
  -- they begin with the start and its image, each the first one numbered
  obtain ⟨-, hrenames⟩ := hempty.insert h.keepsApart hnone hstart
  have hfirst : InStep φ Valid (Numbering.empty.insert start).2 [start]
      (Numbering.empty.insert (φ start)).2 [φ start] := by
    refine ⟨hrenames, rfl, Numbering.valid_insert hnone hstart, fun x hx => ?_⟩
    rw [List.mem_singleton.1 hx]
    exact hstart
  exact hfirst.run h fuel

end Discovery

end ByteMatch
