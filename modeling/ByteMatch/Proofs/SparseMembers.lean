import Mathlib.Data.List.DropRight
import ByteMatch.Proofs.Repetition
import ByteMatch.Proofs.SparseSets
import ByteMatch.SparseArrays

/-!
# Sparse sets hold what was inserted

Bare arrays that begin empty, with room for the numbers below `n`, serve any calls that name such
numbers only, and no others (`SparseArrays.serveAll_eq_none_iff`). Whatever was written to them
before, they answer by what has been inserted since they were last emptied, and the first places of
`dense` list it (`sparse_sets_hold_what_was_inserted`).

What is known of the arrays is what a `SparseSet` carries with it: while they serve calls they are
the arrays of one (`SparseArrays.serveAll_ofSet`). The places that a call looks at are below `n`, and
there is room for one more member as long as a number below `n` is missing
(`SparseSet.size_lt_of_not_mem`). What a `SparseSet` lists is then followed from call to call
(`SparseSet.toList_serve`).
-/

namespace ByteMatch

/-! ### What has been inserted -/

namespace SetCall

/-- The number that a call adds. -/
def inserted? : SetCall → Option Nat
  | .insert x => some x
  | .contains _ => none
  | .clear => none

/-- The numbers inserted since the set was last emptied, as often as they were. -/
def insertions (calls : List SetCall) : List Nat :=
  (calls.rtakeWhile fun call => call ≠ .clear).filterMap inserted?

/-- The members: what has been inserted since the set was last emptied, once each, in the order in
which it first was. -/
def members (calls : List SetCall) : List Nat := (insertions calls).eraseDups

/-- `x` has been inserted, and the set has not been emptied since. -/
def InsertedSince (calls : List SetCall) (x : Nat) : Prop :=
  ∃ earlier later, calls = earlier ++ .insert x :: later ∧ SetCall.clear ∉ later

variable {calls : List SetCall} {x : Nat}

private theorem insertions_concat_clear : insertions (calls ++ [.clear]) = [] := by
  rw [insertions, List.rtakeWhile_concat_neg _ _ _ (by simp)]
  rfl

private theorem insertions_concat_of_ne {call : SetCall} (h : call ≠ .clear) :
    insertions (calls ++ [call]) = insertions calls ++ call.inserted?.toList := by
  rw [insertions, List.rtakeWhile_concat_pos _ _ _ (by simpa using h), List.filterMap_append]
  cases call <;> rfl

private theorem not_insertedSince_nil : ¬ InsertedSince [] x := by
  rintro ⟨earlier, later, h, -⟩
  simp at h

theorem insertedSince_concat_iff {call : SetCall} :
    InsertedSince (calls ++ [call]) x ↔
      call = .insert x ∨ call ≠ .clear ∧ InsertedSince calls x := by
  constructor
  · rintro ⟨earlier, later, h, hlater⟩
    -- the insertion is the last call, or there is a last one behind it
    rcases List.eq_nil_or_concat later with rfl | ⟨later, last, rfl⟩
    · obtain ⟨-, hlast⟩ := List.append_inj' h rfl
      exact .inl (List.cons.inj hlast).1
    · rw [List.concat_eq_append] at h hlater
      have hsplit : calls ++ [call] = (earlier ++ .insert x :: later) ++ [last] := by simpa using h
      obtain ⟨rfl, hlast⟩ := List.append_inj' hsplit rfl
      obtain rfl := (List.cons.inj hlast).1
      refine .inr ⟨?_, earlier, later, rfl, ?_⟩
      · rintro rfl
        exact hlater (List.mem_append_right _ List.mem_cons_self)
      · exact fun hmem => hlater (List.mem_append_left _ hmem)
  · rintro (rfl | ⟨hne, earlier, later, rfl, hlater⟩)
    · exact ⟨calls, [], rfl, List.not_mem_nil⟩
    · -- one call more behind the insertion, which does not empty the set
      refine ⟨earlier, later ++ [call], by simp, ?_⟩
      intro hmem
      rcases List.mem_append.1 hmem with hmem | hmem
      · exact hlater hmem
      · exact hne (List.mem_singleton.1 hmem).symm

/-- The list and the history agree on what has been inserted. -/
theorem mem_insertions_iff : x ∈ insertions calls ↔ InsertedSince calls x := by
  -- on the last call, which alone can add to the list or empty it
  induction calls using List.reverseRecOn with
  | nil => exact ⟨fun h => absurd h List.not_mem_nil, fun h => absurd h not_insertedSince_nil⟩
  | append_singleton calls call ih =>
    rw [insertedSince_concat_iff, ← ih]
    cases call with
    | insert y =>
      rw [insertions_concat_of_ne (by simp), List.mem_append]
      simp [inserted?, or_comm, eq_comm]
    | contains y =>
      rw [insertions_concat_of_ne (by simp), List.mem_append]
      simp [inserted?]
    | clear => simp [insertions_concat_clear]

theorem mem_members_iff : x ∈ members calls ↔ InsertedSince calls x := by
  rw [members, List.mem_eraseDups, mem_insertions_iff]

private theorem members_concat_insert : members (calls ++ [.insert x]) =
    if x ∈ members calls then members calls else members calls ++ [x] := by
  rw [members, insertions_concat_of_ne (by simp)]
  exact eraseDups_concat (insertions calls) x

private theorem members_concat_contains : members (calls ++ [.contains x]) = members calls := by
  rw [members, insertions_concat_of_ne (by simp)]
  exact congrArg List.eraseDups (List.append_nil _)

private theorem members_concat_clear : members (calls ++ [.clear]) = [] := by
  rw [members, insertions_concat_clear, List.eraseDups_nil]

end SetCall

/-! ### What a set lists -/

/-- **What is to be answered** to a call after the calls `earlier`. -/
def SetCall.Answered (earlier : List SetCall) : SetCall → SetReply → Prop
  | .insert x, .inserted new => new = true ↔ ¬ SetCall.InsertedSince earlier x
  | .contains x, .contains member => member = true ↔ SetCall.InsertedSince earlier x
  | .clear, .cleared => True
  | _, _ => False

/-- Each call has a reply, and is answered by the calls before it. -/
structure AllAnswered (calls : List SetCall) (replies : List SetReply) : Prop where
  one_each : replies.length = calls.length
  answered : ∀ i (call : SetCall) (reply : SetReply), calls[i]? = some call →
    replies[i]? = some reply → call.Answered (calls.take i) reply

namespace SparseSet

variable {n : Nat} {set : SparseSet n} {earlier : List SetCall} {call : SetCall}

theorem toList_insert (set : SparseSet n) {x : Nat} (hx : x < n) :
    (set.insert x).2.toList = if x ∈ set.toList then set.toList else set.toList ++ [x] := by
  split
  · -- what is a member already is not inserted again
    next hmem =>
    apply toList_insert_of_false
    rw [Bool.eq_false_iff, ne_eq, insert_fst hx]
    exact not_not_intro hmem
  · next hmem => exact toList_insert_of_true ((insert_fst hx).2 hmem)

/-- **What a call does to the members.** -/
theorem toList_serve (hset : set.toList = SetCall.members earlier) (h : call.Below n) :
    (set.serve call).2.toList = SetCall.members (earlier ++ [call]) := by
  cases call with
  | insert x => rw [serve, toList_insert set h, hset, SetCall.members_concat_insert]
  | contains x => rw [serve, hset, SetCall.members_concat_contains]
  | clear => rw [serve, toList_clear, SetCall.members_concat_clear]

/-- **What is answered to a call.** -/
theorem answered_serve (hset : set.toList = SetCall.members earlier) (h : call.Below n) :
    call.Answered earlier (set.serve call).1 := by
  cases call with
  | insert x =>
    show (set.insert x).1 = true ↔ ¬ SetCall.InsertedSince earlier x
    rw [insert_fst h, hset, SetCall.mem_members_iff]
  | contains x =>
    show set.contains x = true ↔ SetCall.InsertedSince earlier x
    rw [contains_iff_mem, hset, SetCall.mem_members_iff]
  | clear => trivial

/-- What calls do to the members, one after the other. -/
theorem toList_serveAll {calls : List SetCall} (hset : set.toList = SetCall.members earlier)
    (h : ∀ call ∈ calls, call.Below n) :
    (set.serveAll calls).2.toList = SetCall.members (earlier ++ calls) := by
  induction calls generalizing set earlier with
  | nil => rw [serveAll, List.append_nil, hset]
  | cons call calls ih =>
    obtain ⟨hcall, hcalls⟩ := List.forall_mem_cons.1 h
    rw [serveAll, ih (toList_serve hset hcall) hcalls, List.append_assoc]
    rfl

private theorem length_serveAll (set : SparseSet n) (calls : List SetCall) :
    (set.serveAll calls).1.length = calls.length := by
  induction calls generalizing set with
  | nil => rfl
  | cons call calls ih => rw [serveAll, List.length_cons, List.length_cons, ih]

/-- A call among others is answered by the calls before it. -/
theorem answered_serveAll {calls : List SetCall} (hset : set.toList = SetCall.members earlier)
    (h : ∀ call ∈ calls, call.Below n) {i : Nat} {reply : SetReply} (hcall : calls[i]? = some call)
    (hreply : (set.serveAll calls).1[i]? = some reply) :
    call.Answered (earlier ++ calls.take i) reply := by
  -- the calls that have been served move from `calls` to the end of `earlier`
  induction calls generalizing set earlier i with
  | nil => simp at hcall
  | cons first calls ih =>
    obtain ⟨hfirst, hcalls⟩ := List.forall_mem_cons.1 h
    rw [serveAll] at hreply
    cases i with
    | zero =>
      obtain rfl : first = call := by simpa using hcall
      obtain rfl : (set.serve first).1 = reply := by simpa using hreply
      rw [List.take_zero, List.append_nil]
      exact answered_serve hset hfirst
    | succ i =>
      rw [List.getElem?_cons_succ] at hcall hreply
      -- answered by what the first call leaves, with that call counted to the earlier ones
      have hlater := ih (toList_serve hset hfirst) hcalls hcall hreply
      rwa [List.append_assoc] at hlater

/-! A set that begins empty. -/

theorem toList_empty_eq_members (n : Nat) : (empty n).toList = SetCall.members [] := toList_empty n

theorem toList_serveAll_empty {calls : List SetCall} (h : ∀ call ∈ calls, call.Below n) :
    ((empty n).serveAll calls).2.toList = SetCall.members calls :=
  toList_serveAll (toList_empty_eq_members n) h

theorem allAnswered_serveAll_empty {calls : List SetCall} (h : ∀ call ∈ calls, call.Below n) :
    AllAnswered calls ((empty n).serveAll calls).1 where
  one_each := length_serveAll _ calls
  answered i call reply hcall hreply := by
    have hanswered := answered_serveAll (toList_empty_eq_members n) h hcall hreply
    rwa [List.nil_append] at hanswered

end SparseSet

/-! ### Bare arrays in use -/

namespace SparseArrays

variable {n : Nat} {x : Nat}

@[simp] theorem ofSet_empty (n : Nat) : ofSet (SparseSet.empty n) = empty n := rfl

/-- Both places that are looked at are there. -/
theorem contains_ofSet (set : SparseSet n) (hx : x < n) :
    (ofSet set).contains x = some (set.contains x) := by
  have hentry : set.sparse[x]? = some set.sparse[x] := Vector.getElem?_eq_getElem hx
  have hentry' : set.sparse.toArray[x]? = some set.sparse[x] := by
    rw [Vector.getElem?_toArray, hentry]
  -- the place looked at first is that of the number, which is below the bound
  rw [contains, ofSet, hentry', SparseSet.contains, hentry]
  by_cases hk : set.sparse[x] < set.size
  · -- a place in use is a place of the array
    have hlt : set.sparse[x] < n := Nat.lt_of_lt_of_le hk set.size_le
    simp [hk, hlt]
  · simp [hk]

theorem contains_ofSet_eq_none (set : SparseSet n) (hx : ¬ x < n) :
    (ofSet set).contains x = none := by
  have hentry : set.sparse.toArray[x]? = none := by
    rw [Vector.getElem?_toArray, Vector.getElem?_eq_none (Nat.le_of_not_lt hx)]
  rw [contains, ofSet, hentry]

/-- A number that is no member finds room. -/
theorem insert_ofSet (set : SparseSet n) (hx : x < n) :
    (ofSet set).insert x = some ((set.insert x).1, ofSet (set.insert x).2) := by
  have hcontains := contains_ofSet set hx
  by_cases hmem : set.contains x = true
  · rw [hmem] at hcontains
    rw [insert, hcontains, SparseSet.insert, dif_pos hmem]
  · -- the set is not full, for `x` is below the bound and is missing
    have hroom : x < n ∧ set.size < n :=
      ⟨hx, SparseSet.size_lt_of_not_mem hx fun h => hmem (SparseSet.contains_iff_mem.2 h)⟩
    have hplaces : (ofSet set).size < (ofSet set).dense.size ∧ x < (ofSet set).sparse.size := by
      rw [ofSet, Vector.size_toArray, Vector.size_toArray]
      exact hroom.symm
    rw [Bool.eq_false_iff.2 hmem] at hcontains
    rw [insert, hcontains, SparseSet.insert, dif_neg hmem, dif_pos hroom]
    exact dif_pos hplaces

/-- **Bare arrays that are those of a set** serve a call as the set does, if its number is below the
bound. -/
theorem serve_ofSet (set : SparseSet n) {call : SetCall} (h : call.Below n) :
    (ofSet set).serve call = some ((set.serve call).1, ofSet (set.serve call).2) := by
  cases call with
  | insert x =>
    rw [serve, insert_ofSet set h]
    rfl
  | contains x =>
    rw [serve, contains_ofSet set h]
    rfl
  | clear => rfl

theorem serve_ofSet_eq_none (set : SparseSet n) {call : SetCall} (h : ¬ call.Below n) :
    (ofSet set).serve call = none := by
  cases call with
  | insert x =>
    rw [serve, insert, contains_ofSet_eq_none set h]
    rfl
  | contains x =>
    rw [serve, contains_ofSet_eq_none set h]
    rfl
  | clear => exact absurd trivial h

theorem serveAll_ofSet_cons (set : SparseSet n) {call : SetCall} (h : call.Below n)
    (calls : List SetCall) :
    (ofSet set).serveAll (call :: calls) =
      ((ofSet (set.serve call).2).serveAll calls).map fun (replies, last) =>
        ((set.serve call).1 :: replies, last) := by
  rw [serveAll, serve_ofSet set h]
  show ((ofSet (set.serve call).2).serveAll calls).bind _ = _
  cases (ofSet (set.serve call).2).serveAll calls <;> rfl

/-- They serve any such calls, and remain the arrays of a set. -/
theorem serveAll_ofSet (set : SparseSet n) {calls : List SetCall}
    (h : ∀ call ∈ calls, call.Below n) :
    (ofSet set).serveAll calls = some ((set.serveAll calls).1, ofSet (set.serveAll calls).2) := by
  induction calls generalizing set with
  | nil => rfl
  | cons call calls ih =>
    obtain ⟨hcall, hcalls⟩ := List.forall_mem_cons.1 h
    rw [serveAll_ofSet_cons set hcall, ih _ hcalls]
    rfl

/-- **No call looks outside**, if and only if all of them name numbers below the bound. -/
theorem serveAll_eq_none_iff (set : SparseSet n) {calls : List SetCall} :
    (ofSet set).serveAll calls = none ↔ ∃ call ∈ calls, ¬ call.Below n := by
  constructor
  · intro hnone
    by_contra hall
    push Not at hall
    rw [serveAll_ofSet set hall] at hnone
    contradiction
  · rintro ⟨out, hmem, hout⟩
    induction calls generalizing set with
    | nil => exact absurd hmem List.not_mem_nil
    | cons call calls ih =>
      by_cases hcall : call.Below n
      · -- this call is served, so the one that is not comes later
        have hlater : out ∈ calls := by
          rcases List.mem_cons.1 hmem with rfl | hmem
          · exact absurd hcall hout
          · exact hmem
        rw [serveAll_ofSet_cons set hcall, ih _ hlater]
        rfl
      · rw [serveAll, serve_ofSet_eq_none set hcall]
        rfl

/-- **The first places of `dense`** hold the members, and what stands behind them does not count. -/
structure Holds (s : SparseArrays) (calls : List SetCall) : Prop where
  size_le : s.size ≤ s.dense.size
  /-- The members stand in the order in which they were inserted. -/
  front : (s.dense.take s.size).toList = SetCall.members calls
  nodup : (s.dense.take s.size).toList.Nodup
  mem_iff : ∀ x, x ∈ (s.dense.take s.size).toList ↔ SetCall.InsertedSince calls x

theorem holds_ofSet {set : SparseSet n} {calls : List SetCall}
    (h : set.toList = SetCall.members calls) :
    (ofSet set).Holds calls where
  size_le := by
    rw [ofSet, Vector.size_toArray]
    exact set.size_le
  front := h
  nodup := set.nodup_toList
  mem_iff x := by
    show x ∈ set.toList ↔ SetCall.InsertedSince calls x
    rw [h, SetCall.mem_members_iff]

end SparseArrays

/-- **Sparse sets hold what was inserted.** Bare arrays with room for the numbers below `n` serve
calls without looking outside exactly if the calls name such numbers only. Then every call is
answered by what has been inserted since the set was last emptied, the first places of `dense` hold
just that, once each and in the order of insertion, and replies and arrays are those of a
`SparseSet`. -/
theorem sparse_sets_hold_what_was_inserted (n : Nat) (calls : List SetCall) :
    ((SparseArrays.empty n).serveAll calls = none ↔ ∃ call ∈ calls, ¬ call.Below n) ∧
      ((∀ call ∈ calls, call.Below n) → ∃ replies s,
        (SparseArrays.empty n).serveAll calls = some (replies, s) ∧ AllAnswered calls replies ∧
          s.Holds calls ∧ ∃ set, (SparseSet.empty n).serveAll calls = (replies, set) ∧
            s = SparseArrays.ofSet set) := by
  rw [← SparseArrays.ofSet_empty]
  refine ⟨SparseArrays.serveAll_eq_none_iff _, ?_⟩
  intro h
  exact ⟨_, _, SparseArrays.serveAll_ofSet _ h, SparseSet.allAnswered_serveAll_empty h,
    SparseArrays.holds_ofSet (SparseSet.toList_serveAll_empty h), _, rfl, rfl⟩

/-- After the set was emptied both arrays are full of what was written before: the entry of 3 points
at the place of 2, that of 0 at a place out of use. -/
theorem sparse_sets_hold_what_was_inserted_stale :
    let calls : List SetCall := [.insert 3, .insert 0, .insert 3, .contains 0, .clear, .contains 3,
      .insert 2, .contains 3, .contains 0, .insert 0]
    (∀ call ∈ calls, call.Below 4) ∧ ∃ replies s,
      (SparseArrays.empty 4).serveAll calls = some (replies, s) ∧ AllAnswered calls replies ∧
        s.Holds calls ∧ s = ⟨#[2, 0, 0, 0], #[1, 0, 0, 0], 2⟩ ∧
        replies = [.inserted true, .inserted true, .inserted false, .contains true, .cleared,
          .contains false, .inserted true, .contains false, .contains false, .inserted true] := by
  intro calls
  have h : ∀ call ∈ calls, call.Below 4 := by decide
  obtain ⟨replies, s, hserve, hanswered, hholds, -⟩ :=
    (sparse_sets_hold_what_was_inserted 4 calls).2 h
  refine ⟨h, replies, s, hserve, hanswered, hholds, ?_⟩
  have hrun : (SparseArrays.empty 4).serveAll calls = some
      ([.inserted true, .inserted true, .inserted false, .contains true, .cleared, .contains false,
        .inserted true, .contains false, .contains false, .inserted true],
        ⟨#[2, 0, 0, 0], #[1, 0, 0, 0], 2⟩) := by
    decide
  rw [hrun] at hserve
  obtain ⟨rfl, rfl⟩ := Prod.mk.inj (Option.some.inj hserve)
  exact ⟨rfl, rfl⟩

end ByteMatch
