import ByteMatch.Pattern.Branch
import ByteMatch.Proofs.Prepending
import Mathlib.Data.List.Forall2
import Mathlib.Data.List.Nodup

/-!
# What branches yield

A tree of states is put in front one branch after the other, and then the state from which they
branch. The states that the branches lead to have long had others put in front of them by then; what
is yielded from them has stayed the same (`Graph.YieldsExactly.of_builtOn`). So a new start in front of
branches yields, behind a byte with which some of the strings begin, what the branch for this byte
yields, and behind any other byte what the default does (`Graph.yields_branching_iff`).
-/

namespace ByteMatch

variable {α : Type}

/-! ### Strings sorted by their first byte -/

section Strings

variable {b : UInt8} {strings tails : List Bytes} {rest : Bytes}

theorem mem_tailsAfter : rest ∈ tailsAfter b strings ↔ b :: rest ∈ strings := by
  unfold tailsAfter
  rw [List.mem_filterMap]
  refine ⟨?_, ?_⟩
  · rintro ⟨string, hstring, h⟩
    cases string with
    | nil => contradiction
    | cons c tail =>
      by_cases hc : c = b
      · subst hc
        simp only [if_true, Option.some.injEq] at h
        rwa [← h]
      · simp only [if_neg hc] at h
        contradiction
  · intro h
    exact ⟨b :: rest, h, if_pos rfl⟩

theorem tailsAfter_eq_nil_iff : tailsAfter b strings = [] ↔ ∀ rest, b :: rest ∉ strings := by
  rw [List.eq_nil_iff_forall_not_mem]
  exact forall_congr' fun rest => not_congr mem_tailsAfter

/-- Some string begins with a byte exactly if something follows the byte. -/
theorem exists_prefix_cons_iff {path : Bytes} :
    (∃ string ∈ strings, b :: path <+: string) ↔ ∃ tail ∈ tailsAfter b strings, path <+: tail := by
  refine ⟨?_, ?_⟩
  · rintro ⟨string, hstring, more, rfl⟩
    exact ⟨path ++ more, mem_tailsAfter.2 hstring, List.prefix_append _ _⟩
  · rintro ⟨tail, htail, hpath⟩
    exact ⟨b :: tail, mem_tailsAfter.1 htail, (List.prefix_cons_inj b).2 hpath⟩

theorem mem_branches :
    (b, tails) ∈ branches strings ↔
      InAlphabet b ∧ tails = tailsAfter b strings ∧ tails ≠ [] := by
  unfold branches
  rw [List.mem_filterMap]
  refine ⟨?_, ?_⟩
  · -- a byte that has nothing behind it is left out
    rintro ⟨c, hc, h⟩
    cases htails : tailsAfter c strings with
    | nil =>
      rw [htails] at h
      contradiction
    | cons tail rest =>
      rw [htails] at h
      obtain ⟨rfl, rfl⟩ := Prod.mk.inj (Option.some.inj h)
      exact ⟨mem_alphabet.1 hc, htails.symm, List.cons_ne_nil _ _⟩
  · rintro ⟨hb, rfl, hne⟩
    -- the byte is come across, and it has something behind it
    refine ⟨b, mem_alphabet.2 hb, ?_⟩
    cases htails : tailsAfter b strings with
    | nil => exact absurd htails hne
    | cons tail rest => rfl

/-- A byte has no branch if no string begins with it. -/
private theorem not_mem_branches (h : tailsAfter b strings = []) :
    (b, tails) ∉ branches strings := by
  intro hmem
  obtain ⟨-, rfl, hne⟩ := mem_branches.1 hmem
  exact hne h

private theorem nodup_alphabet : alphabet.Nodup := by
  refine List.nodup_range.map_on fun i hi j hj heq => ?_
  have htoNat := congrArg UInt8.toNat heq
  rwa [toNat_ofNat_of_lt (List.mem_range.1 hi), toNat_ofNat_of_lt (List.mem_range.1 hj)] at htoNat

private theorem keys_branches_sublist (strings : List Bytes) :
    ((branches strings).map Prod.fst).Sublist alphabet := by
  unfold branches
  generalize alphabet = bytes
  induction bytes with
  | nil => exact List.Sublist.refl _
  | cons b bytes ih =>
    rw [List.filterMap_cons]
    cases tailsAfter b strings with
    | nil => exact ih.cons b
    | cons tail rest => exact ih.cons_cons b

/-- No byte has two branches. -/
theorem nodup_keys_branches (strings : List Bytes) : ((branches strings).map Prod.fst).Nodup :=
  nodup_alphabet.sublist (keys_branches_sublist strings)

/-- No string is longer than the longest. -/
theorem length_le_maxLength {string : Bytes} (h : string ∈ strings) :
    string.length ≤ maxLength strings := by
  -- said of a fold that starts anywhere, for the start to grow in the induction
  have hfold : ∀ (lengths : List Nat) (k : Nat),
      k ≤ lengths.foldl max k ∧ ∀ n ∈ lengths, n ≤ lengths.foldl max k := by
    intro lengths
    induction lengths with
    | nil => exact fun k => ⟨Nat.le_refl k, fun n hn => absurd hn List.not_mem_nil⟩
    | cons m lengths ih =>
      intro k
      obtain ⟨hk, hrest⟩ := ih (max k m)
      refine ⟨Nat.le_trans (Nat.le_max_left k m) hk, fun n hn => ?_⟩
      rcases List.mem_cons.1 hn with rfl | hn
      · exact Nat.le_trans (Nat.le_max_right k n) hk
      · exact hrest n hn
  exact (hfold _ 0).2 _ (List.mem_map_of_mem h)

end Strings

namespace Graph

variable {g g' g'' : Graph α} {s goal : StateId} {read : Bytes} {p : α}
  {G : Bytes → α → Prop} {L : List Bytes → Bytes → α → Prop}

/-! ### States with others put in front -/

/-- `g'` has come about from `g` by putting states in front, and keeps inside. -/
structure BuiltOn (g g' : Graph α) : Prop where
  inside : g'.seal.StepsInside
  keeps : g.Extends g'

theorem BuiltOn.refl (inside : g.seal.StepsInside) : g.BuiltOn g := ⟨inside, fun _ _ => rfl⟩

theorem BuiltOn.lt_size (h : g.BuiltOn g') (hs : s < g.nodes.size) : s < g'.nodes.size := by
  have hnode : g'.nodes[s]? = some g.nodes[s] := by
    rw [h.keeps s hs, Array.getElem?_eq_getElem hs]
  exact (Array.getElem?_eq_some_iff.1 hnode).1

theorem BuiltOn.trans (h : g.BuiltOn g') (h' : g'.BuiltOn g'') : g.BuiltOn g'' where
  inside := h'.inside
  keeps i hi := by rw [h'.keeps i (h.lt_size hi), h.keeps i hi]

theorem builtOn_prependSteps (inside : g.seal.StepsInside) {default : Option StateId}
    {entries : List (UInt8 × Option StateId)} (hdefault : ∀ n, default = some n → n < g.nodes.size)
    (hentries : ∀ entry ∈ entries, ∀ n, entry.2 = some n → n < g.nodes.size) :
    g.BuiltOn (g.prependSteps default entries) where
  inside := stepsInside_prependSteps inside (fun n hn => Nat.le_of_lt (hdefault n hn))
    fun entry hentry n hn => Nat.le_of_lt (hentries entry hentry n hn)
  keeps := extends_prepend

/-- **What is yielded from a state** of the graph is exactly what `L` says. -/
structure YieldsExactly (g : Graph α) (s : StateId) (L : Bytes → α → Prop) : Prop where
  lt : s < g.nodes.size
  iff : ∀ read p, g.seal.YieldsFrom s read p ↔ L read p

theorem YieldsExactly.some_lt (h : g.YieldsExactly s G) :
    ∀ n, some s = some n → n < g.nodes.size := by
  intro n hn
  rw [← Option.some.inj hn]
  exact h.lt

/-- States put in front change nothing. -/
theorem YieldsExactly.of_builtOn (h : g.YieldsExactly s G) (inside : g.seal.StepsInside)
    (hbuilt : g.BuiltOn g') : g'.YieldsExactly s G where
  lt := hbuilt.lt_size h.lt
  iff read p := by rw [hbuilt.keeps.yieldsFrom_iff inside h.lt, h.iff]

/-! ### Branches put in front -/

/-- A branch and the entry for it: the byte leads to a state that yields what the branch should. -/
def Leads (g : Graph α) (L : List Bytes → Bytes → α → Prop) (branch : UInt8 × List Bytes)
    (entry : UInt8 × Option StateId) : Prop :=
  entry.1 = branch.1 ∧ ∃ s, entry.2 = some s ∧ g.YieldsExactly s (L branch.2)

/-- **Branches lead where they should** if each of them does when it is put in front. `goal` is a
state that all of them may come back to. -/
theorem leads_prependBranches {target : Graph α → List Bytes → Graph α × StateId}
    {list : List (UInt8 × List Bytes)}
    (htarget : ∀ branch ∈ list, ∀ g : Graph α, g.seal.StepsInside → g.YieldsExactly goal G →
      g.BuiltOn (target g branch.2).1 ∧
        (target g branch.2).1.YieldsExactly (target g branch.2).2 (L branch.2))
    (inside : g.seal.StepsInside) (hgoal : g.YieldsExactly goal G) :
    g.BuiltOn (prependBranches target list g).1 ∧
      List.Forall₂ ((prependBranches target list g).1.Leads L) list
        (prependBranches target list g).2 := by
  induction list generalizing g with
  | nil => exact ⟨.refl inside, .nil⟩
  | cons branch rest ih =>
    obtain ⟨b, tails⟩ := branch
    obtain ⟨hbuilt, hstate⟩ := htarget (b, tails) List.mem_cons_self g inside hgoal
    obtain ⟨hrest, hleads⟩ := ih
      (fun branch hbranch => htarget branch (List.mem_cons_of_mem _ hbranch))
      hbuilt.inside (hgoal.of_builtOn inside hbuilt)
    -- the other branches go in front of this one, which yields what it did
    have hfirst : (prependBranches target rest (target g tails).1).1.Leads L (b, tails)
        (b, some (target g tails).2) :=
      ⟨rfl, _, rfl, hstate.of_builtOn hbuilt.inside hrest⟩
    exact ⟨hbuilt.trans hrest, .cons hfirst hleads⟩

section Targets

variable {list : List (UInt8 × List Bytes)} {entries : List (UInt8 × Option StateId)} {b : UInt8}

private theorem lt_of_leads (h : List.Forall₂ (g.Leads L) list entries) :
    ∀ entry ∈ entries, ∀ n, entry.2 = some n → n < g.nodes.size := by
  intro entry hentry n hn
  induction h with
  | nil => exact absurd hentry List.not_mem_nil
  | cons hfirst _ ih =>
    rcases List.mem_cons.1 hentry with rfl | hentry
    · -- the entry leads to the state of its branch, which is there
      obtain ⟨-, s, hs, hstate⟩ := hfirst
      rw [hs] at hn
      obtain rfl := Option.some.inj hn
      exact hstate.lt
    · exact ih hentry

private theorem lastTarget_append (default : Option StateId)
    (entries entries' : List (UInt8 × Option StateId)) (i : Nat) :
    Table.lastTarget default (entries ++ entries') i =
      Table.lastTarget (Table.lastTarget default entries i) entries' i := by
  rw [Table.lastTarget, List.foldl_append]
  rfl

/-- A byte without a branch goes where it goes by default. -/
theorem lastTarget_of_no_branch (h : List.Forall₂ (g.Leads L) list entries)
    (hb : ∀ tails, (b, tails) ∉ list) (default : Option StateId) :
    Table.lastTarget default entries b.toNat = default := by
  induction h with
  | nil => rfl
  | @cons branch entry list entries hfirst _ ih =>
    -- otherwise the branch for which the entry stands would be one for `b`
    have hne : entry.1.toNat ≠ b.toNat := by
      intro heq
      have hbyte : branch.1 = b := hfirst.1.symm.trans (UInt8.toNat_inj.1 heq)
      exact hb branch.2 (by rw [← hbyte]; exact List.mem_cons_self)
    rw [← List.singleton_append, lastTarget_append, Table.lastTarget_singleton, if_neg hne]
    exact ih fun tails hmem => hb tails (List.mem_cons_of_mem _ hmem)

/-- A byte with a branch goes to the state of the branch. -/
theorem exists_lastTarget_of_branch (h : List.Forall₂ (g.Leads L) list entries)
    (hnodup : (list.map Prod.fst).Nodup) {tails : List Bytes} (hb : (b, tails) ∈ list)
    (default : Option StateId) :
    ∃ s, Table.lastTarget default entries b.toNat = some s ∧ g.YieldsExactly s (L tails) := by
  induction h generalizing default with
  | nil => exact absurd hb List.not_mem_nil
  | @cons branch entry list entries hfirst hrest ih =>
    obtain ⟨hnew, hnodup⟩ := List.nodup_cons.1 hnodup
    rw [← List.singleton_append, lastTarget_append]
    rcases List.mem_cons.1 hb with rfl | hb
    · -- no branch behind this one is for the same byte
      have hothers : ∀ tails', (b, tails') ∉ list :=
        fun tails' hmem => hnew (List.mem_map.2 ⟨(b, tails'), hmem, rfl⟩)
      obtain ⟨hbyte, s, hs, hstate⟩ := hfirst
      have hentry : entry.1.toNat = b.toNat := congrArg UInt8.toNat hbyte
      rw [Table.lastTarget_singleton, if_pos hentry, hs]
      exact ⟨s, lastTarget_of_no_branch hrest hothers _, hstate⟩
    · exact ih hnodup hb _

end Targets

/-- **What a new start in front of branches yields.** Behind a byte with which some of the strings
begin, it yields what is yielded for the rest of these; behind any other byte, what the states yield
that bytes lead to otherwise. -/
theorem yields_branching_iff (target : Graph α → List Bytes → Graph α × StateId)
    {strings : List Bytes}
    (htarget : ∀ branch ∈ branches strings, ∀ g : Graph α, g.seal.StepsInside →
      g.YieldsExactly goal G → g.BuiltOn (target g branch.2).1 ∧
        (target g branch.2).1.YieldsExactly (target g branch.2).2 (L branch.2))
    (inside : g.seal.StepsInside) (hgoal : g.YieldsExactly goal G) {default : Option StateId}
    {others : List (UInt8 × Option StateId)} (hdefault : ∀ n, default = some n → n < g.nodes.size)
    (hothers : ∀ entry ∈ others, ∀ n, entry.2 = some n → n < g.nodes.size) :
    let built := prependBranches target (branches strings) g
    g.BuiltOn (built.1.prependSteps default (others ++ built.2)) ∧
      ∀ read p, (built.1.prependSteps default (others ++ built.2)).seal.Yields read p ↔
        ∃ b rest, read = b :: rest ∧ InAlphabet b ∧
          if tailsAfter b strings = [] then
            ∃ n, Table.lastTarget default others b.toNat = some n ∧ g.seal.YieldsFrom n rest p
          else L (tailsAfter b strings) rest p := by
  intro built
  obtain ⟨hbuilt, hleads⟩ := leads_prependBranches htarget inside hgoal
  have hlt : ∀ n, default = some n → n < built.1.nodes.size :=
    fun n hn => hbuilt.lt_size (hdefault n hn)
  -- the graph only grows, so nothing that an entry leads to gets lost
  have hentries : ∀ entry ∈ others ++ built.2, ∀ n, entry.2 = some n → n < built.1.nodes.size := by
    intro entry hentry n hn
    rcases List.mem_append.1 hentry with hentry | hentry
    · exact hbuilt.lt_size (hothers entry hentry n hn)
    · exact lt_of_leads hleads entry hentry n hn
  -- the start takes one step, and where to is read off the last entry for the byte
  refine ⟨hbuilt.trans (builtOn_prependSteps hbuilt.inside hlt hentries), fun read p => ?_⟩
  rw [yields_prependSteps_iff hbuilt.inside hlt hentries]
  refine exists_congr fun b => exists_congr fun rest => and_congr_right fun _ =>
    and_congr_right fun hb => ?_
  rw [lastTarget_append]
  split
  · -- without a branch, the byte goes where it did before there were branches
    next hnone =>
    rw [lastTarget_of_no_branch hleads (fun tails => not_mem_branches hnone)]
    refine exists_congr fun n => and_congr_right fun hn => ?_
    exact hbuilt.keeps.yieldsFrom_iff inside (Table.of_lastTarget hdefault hothers hn)
  · -- the branch comes last among the entries, so it decides
    next hsome =>
    have hbranch : (b, tailsAfter b strings) ∈ branches strings := mem_branches.2 ⟨hb, rfl, hsome⟩
    obtain ⟨s, hs, hstate⟩ :=
      exists_lastTarget_of_branch hleads (nodup_keys_branches strings) hbranch
        (Table.lastTarget default others b.toNat)
    rw [hs]
    refine ⟨?_, fun h => ⟨s, rfl, (hstate.iff rest p).2 h⟩⟩
    rintro ⟨n, hn, h⟩
    obtain rfl := Option.some.inj hn
    exact (hstate.iff rest p).1 h

end Graph

end ByteMatch
