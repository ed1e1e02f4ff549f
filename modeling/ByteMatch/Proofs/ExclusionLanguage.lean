import ByteMatch.Pattern.Exclusion
import ByteMatch.Proofs.Branching

/-!
# The language of all values but some

The automaton that matches all values but those listed follows them as long as it can. It yields its
payload behind the first byte that leaves all of them, which may be the terminator, unless the
terminator comes where one of them ends: `Exclusion.Departs` says this of what has been read, and
`Exclusion.yields_automaton_iff` that it is what the automaton does.

What has to be known of a word with no terminator but at its end is whether it departs somewhere, and
for that it is enough to look at the whole of it (`Exclusion.exists_departs_iff`): it does, unless it
begins one of the values listed or is one of them with a terminator behind it.
-/

namespace ByteMatch.Exclusion

variable {α : Type} {excluded remainders : List Bytes} {read word rest : Bytes} {b : UInt8}

/-! ### Leaving the values listed -/

/-- The last byte read leaves all values listed: what was read before begins one of them, or nothing
was read, and with the byte it begins none. If the byte is the terminator, what was read before is
none of them either. -/
def Departs (excluded : List Bytes) (read : Bytes) : Prop :=
  ∃ path b, read = path ++ [b] ∧ (path = [] ∨ ∃ e ∈ excluded, path <+: e) ∧
    (∀ e ∈ excluded, ¬ path ++ [b] <+: e) ∧ (b = terminator → path ∉ excluded)

theorem not_departs_nil : ¬ Departs excluded [] := by
  rintro ⟨path, b, h, -⟩
  exact List.append_ne_nil_of_right_ne_nil path (List.cons_ne_nil b []) h.symm

/-- Where no value listed goes on with the byte, it departs at once or not at all. -/
theorem departs_cons_iff_of_nil (h : tailsAfter b excluded = []) :
    Departs excluded (b :: rest) ↔ rest = [] ∧ (b = terminator → [] ∉ excluded) := by
  have hnone : ∀ path, ¬ ∃ e ∈ excluded, b :: path <+: e := by
    intro path hpath
    obtain ⟨tail, htail, -⟩ := exists_prefix_cons_iff.1 hpath
    rw [h] at htail
    exact List.not_mem_nil htail
  refine ⟨?_, ?_⟩
  · rintro ⟨path, c, hread, hpath, -, hend⟩
    cases path with
    | nil =>
      obtain ⟨rfl, rfl⟩ := List.cons.inj hread
      exact ⟨rfl, hend⟩
    | cons b' path =>
      -- nothing listed begins with the byte, let alone with more
      obtain ⟨rfl, -⟩ := List.cons.inj hread
      exact absurd (hpath.resolve_left (List.cons_ne_nil _ _)) (hnone path)
  · rintro ⟨rfl, hend⟩
    exact ⟨[], b, rfl, .inl rfl, fun e he hprefix => hnone [] ⟨e, he, hprefix⟩, hend⟩

/-- Where some values listed go on with the byte, their remainders are left behind it. -/
theorem departs_cons_iff_of_ne_nil (h : tailsAfter b excluded ≠ []) :
    Departs excluded (b :: rest) ↔ Departs (tailsAfter b excluded) rest := by
  refine ⟨?_, ?_⟩
  · rintro ⟨path, c, hread, hpath, hleaves, hend⟩
    cases path with
    | nil =>
      -- one of them goes on with the byte, so it does not leave them all
      obtain ⟨rfl, rfl⟩ := List.cons.inj hread
      obtain ⟨tail, htail⟩ := List.exists_mem_of_ne_nil _ h
      exact absurd ⟨tail, rfl⟩ (hleaves (b :: tail) (mem_tailsAfter.1 htail))
    | cons b' path =>
      obtain ⟨rfl, rfl⟩ := List.cons.inj hread
      refine ⟨path, c, rfl, .inr ?_, fun e he hprefix => ?_, fun hc hmem => ?_⟩
      · exact exists_prefix_cons_iff.1 (hpath.resolve_left (List.cons_ne_nil _ _))
      · exact hleaves (b :: e) (mem_tailsAfter.1 he) ((List.prefix_cons_inj b).2 hprefix)
      · exact hend hc (mem_tailsAfter.1 hmem)
  · rintro ⟨path, c, rfl, hpath, hleaves, hend⟩
    refine ⟨b :: path, c, rfl, .inr ?_, fun e he hprefix => ?_, fun hc hmem => ?_⟩
    · rw [exists_prefix_cons_iff]
      rcases hpath with rfl | hpath
      · obtain ⟨tail, htail⟩ := List.exists_mem_of_ne_nil _ h
        exact ⟨tail, htail, List.nil_prefix⟩
      · exact hpath
    · obtain ⟨tail, htail, hprefix⟩ := exists_prefix_cons_iff.1 ⟨e, he, hprefix⟩
      exact hleaves tail htail hprefix
    · exact hend hc (mem_tailsAfter.2 hmem)

/-- A beginning at which a word departs has the first byte of the word. -/
theorem exists_departs_cons_iff : (∃ read, read <+: b :: word ∧ Departs excluded read) ↔
    ∃ rest, rest <+: word ∧ Departs excluded (b :: rest) := by
  refine ⟨?_, ?_⟩
  · rintro ⟨read, hread, hdeparts⟩
    cases read with
    -- something has to be read for the word to depart
    | nil => exact absurd hdeparts not_departs_nil
    | cons c rest =>
      obtain ⟨rfl, hrest⟩ := List.cons_prefix_cons.1 hread
      exact ⟨rest, hrest, hdeparts⟩
  · rintro ⟨rest, hrest, hdeparts⟩
    exact ⟨b :: rest, (List.prefix_cons_inj b).2 hrest, hdeparts⟩

/-- A word is kept apart from the values listed as what is behind its first byte is from their
remainders; only the empty value, which has no remainder, is one to be kept apart from the
terminator. -/
theorem forall_apart_cons_iff :
    (∀ e ∈ excluded, ¬ b :: word <+: e ∧ e ++ [terminator] ≠ b :: word) ↔
      (∀ tail ∈ tailsAfter b excluded, ¬ word <+: tail ∧ tail ++ [terminator] ≠ word) ∧
        (b = terminator → word = [] → [] ∉ excluded) := by
  refine ⟨fun h => ⟨fun tail htail => ?_, ?_⟩, ?_⟩
  · obtain ⟨hnot, hne⟩ := h (b :: tail) (mem_tailsAfter.1 htail)
    refine ⟨fun hprefix => hnot ((List.prefix_cons_inj b).2 hprefix), fun heq => hne ?_⟩
    rw [List.cons_append, heq]
  · -- the empty value is listed, and the word is the terminator that follows it
    rintro rfl rfl hmem
    exact (h [] hmem).2 rfl
  · rintro ⟨htails, hempty⟩ e he
    refine ⟨fun hprefix => ?_, fun heq => ?_⟩
    · obtain ⟨tail, htail, hprefix⟩ := exists_prefix_cons_iff.1 ⟨e, he, hprefix⟩
      exact (htails tail htail).1 hprefix
    · cases e with
      | nil =>
        -- the empty value has no remainder, so it is looked at by itself
        obtain ⟨hb, hword⟩ := List.cons.inj heq
        exact hempty hb.symm hword.symm he
      | cons c e =>
        obtain ⟨rfl, htail⟩ := List.cons.inj heq
        exact (htails e (mem_tailsAfter.2 he)).2 htail

/-- **A word departs somewhere** unless it begins one of the values listed or is one of them with a
terminator behind it. The word may have a terminator at its end, but none before. -/
theorem exists_departs_iff (hword : terminator ∉ word.dropLast) :
    (∃ read, read <+: word ∧ Departs excluded read) ↔
      word ≠ [] ∧ ∀ e ∈ excluded, ¬ word <+: e ∧ e ++ [terminator] ≠ word := by
  induction word generalizing excluded with
  | nil =>
    refine iff_of_false ?_ fun h => h.1 rfl
    rintro ⟨read, hread, hdeparts⟩
    rw [List.prefix_nil.1 hread] at hdeparts
    exact not_departs_nil hdeparts
  | cons b word ih =>
    rw [exists_departs_cons_iff, and_iff_right (List.cons_ne_nil b word), forall_apart_cons_iff]
    by_cases htails : tailsAfter b excluded = []
    · -- all are left at once, and the terminator comes last
      have hlast : b = terminator → word = [] := by
        rintro rfl
        cases word with
        | nil => rfl
        | cons c word => exact absurd List.mem_cons_self hword
      simp only [departs_cons_iff_of_nil htails, htails, List.not_mem_nil, false_implies,
        implies_true, true_and]
      refine ⟨?_, fun h => ⟨[], List.nil_prefix, rfl, fun hb => h hb (hlast hb)⟩⟩
      rintro ⟨rest, -, -, hend⟩ hb -
      exact hend hb
    · -- the remainders are followed behind the byte
      simp only [departs_cons_iff_of_ne_nil htails]
      cases word with
      | nil =>
        refine iff_of_false ?_ fun h => ?_
        · rintro ⟨rest, hrest, hdeparts⟩
          rw [List.prefix_nil.1 hrest] at hdeparts
          exact not_departs_nil hdeparts
        · -- the byte alone begins one of the values listed, so nothing departs
          obtain ⟨tail, htail⟩ := List.exists_mem_of_ne_nil _ htails
          exact (h.1 tail htail).1 List.nil_prefix
      | cons c word =>
        have hrest : terminator ∉ (c :: word).dropLast :=
          fun hmem => hword (List.mem_cons_of_mem b hmem)
        have hnonempty : b = terminator → c :: word = [] → [] ∉ excluded :=
          fun _ h => absurd h (List.cons_ne_nil c word)
        rw [ih hrest, and_iff_right (List.cons_ne_nil c word), and_iff_left hnonempty]

/-! ### What the automaton yields -/

section Automaton

variable {g : Graph α} {success : StateId} {payload p : α}

/-- What is yielded where these remainders are left. -/
def Language (payload : α) (remainders : List Bytes) (read : Bytes) (p : α) : Prop :=
  p = payload ∧ (∀ b ∈ read, InAlphabet b) ∧ Departs remainders read

/-- The terminator and all bytes without a branch: a terminator that ends a remainder leads nowhere,
and all else to success. -/
private theorem lastTarget_endings (success : StateId) (remainders : List Bytes) (b : UInt8) :
    Table.lastTarget (some success) (endings remainders) b.toNat =
      if b = terminator ∧ [] ∈ remainders then none else some success := by
  unfold endings
  by_cases hend : [] ∈ remainders
  · rw [if_pos hend, Table.lastTarget_singleton]
    by_cases hb : b = terminator
    · rw [if_pos (congrArg UInt8.toNat hb.symm), if_pos ⟨hb, hend⟩]
    · have hne : terminator.toNat ≠ b.toNat := fun heq => hb (UInt8.toNat_inj.1 heq).symm
      rw [if_neg hne, if_neg fun h => hb h.1]
  · rw [if_neg hend, if_neg fun h => hend h.2]
    rfl

/-- Endings lead nowhere, so that they lead inside any graph. -/
private theorem endings_lt (remainders : List Bytes) (size : Nat) :
    ∀ entry ∈ endings remainders, ∀ n, entry.2 = some n → n < size := by
  intro entry hentry n hn
  unfold endings at hentry
  split at hentry
  · rw [List.mem_singleton.1 hentry] at hn
    contradiction
  · exact absurd hentry List.not_mem_nil

/-- What is yielded behind a byte without a branch. -/
theorem yields_otherwise_iff (hsuccess : g.YieldsExactly success fun read p => read = [] ∧ p = payload)
    (remainders : List Bytes) (b : UInt8) (rest : Bytes) (p : α) :
    (∃ n, Table.lastTarget (some success) (endings remainders) b.toNat = some n ∧
        g.seal.YieldsFrom n rest p) ↔
      ¬ (b = terminator ∧ [] ∈ remainders) ∧ rest = [] ∧ p = payload := by
  rw [lastTarget_endings]
  split
  · next hend =>
    refine iff_of_false ?_ fun h => h.1 hend
    rintro ⟨n, hn, -⟩
    contradiction
  · next hend =>
    rw [and_iff_right hend, ← hsuccess.iff]
    refine ⟨?_, fun h => ⟨success, rfl, h⟩⟩
    rintro ⟨n, hn, h⟩
    rwa [Option.some.inj hn]

/-- What departs from the remainders, byte by byte. -/
theorem language_iff :
    Language payload remainders read p ↔ ∃ b rest, read = b :: rest ∧ InAlphabet b ∧
      if tailsAfter b remainders = [] then
        ¬ (b = terminator ∧ [] ∈ remainders) ∧ rest = [] ∧ p = payload
      else Language payload (tailsAfter b remainders) rest p := by
  have hcons : ∀ b rest, InAlphabet b → (Language payload remainders (b :: rest) p ↔
      if tailsAfter b remainders = [] then
        ¬ (b = terminator ∧ [] ∈ remainders) ∧ rest = [] ∧ p = payload
      else Language payload (tailsAfter b remainders) rest p) := by
    intro b rest hb
    unfold Language
    rw [List.forall_mem_cons, and_iff_right hb]
    split
    · next htails =>
      -- no remainder goes on with the byte, so the word departs here or not at all
      rw [departs_cons_iff_of_nil htails, not_and]
      refine ⟨?_, ?_⟩
      · rintro ⟨rfl, -, rfl, hend⟩
        exact ⟨hend, rfl, rfl⟩
      · rintro ⟨hend, rfl, rfl⟩
        exact ⟨rfl, fun c hc => absurd hc List.not_mem_nil, rfl, hend⟩
    · next htails => rw [departs_cons_iff_of_ne_nil htails]
  refine ⟨fun h => ?_, ?_⟩
  · cases read with
    | nil => exact absurd h.2.2 not_departs_nil
    | cons b rest =>
      have hb : InAlphabet b := h.2.1 b List.mem_cons_self
      exact ⟨b, rest, rfl, hb, (hcons b rest hb).1 h⟩
  · rintro ⟨b, rest, rfl, hb, h⟩
    exact (hcons b rest hb).2 h

/-- **The tree yields what departs from the remainders.** -/
theorem yields_prependTree_iff (depth : Nat) (hdepth : ∀ r ∈ remainders, r.length ≤ depth)
    (inside : g.seal.StepsInside)
    (hsuccess : g.YieldsExactly success fun read p => read = [] ∧ p = payload) :
    g.BuiltOn (prependTree success depth remainders g) ∧
      ∀ read p, (prependTree success depth remainders g).seal.Yields read p ↔
        Language payload remainders read p := by
  induction depth generalizing remainders g with
  | zero =>
    -- no remainder goes on
    have htails : ∀ b, tailsAfter b remainders = [] := by
      intro b
      rw [tailsAfter_eq_nil_iff]
      intro rest hrest
      exact absurd (hdepth _ hrest) (Nat.not_succ_le_zero _)
    have hendings := endings_lt remainders g.nodes.size
    refine ⟨Graph.builtOn_prependSteps inside hsuccess.some_lt hendings, fun read p => ?_⟩
    rw [prependTree, Graph.yields_prependSteps_iff inside hsuccess.some_lt hendings, language_iff]
    simp only [htails, if_true, yields_otherwise_iff hsuccess]
  | succ depth ih =>
    -- a branch is the tree for what is left behind its byte, and that is shorter
    have htarget : ∀ branch ∈ branches remainders, ∀ g : Graph α, g.seal.StepsInside →
        g.YieldsExactly success (fun read p => read = [] ∧ p = payload) →
        g.BuiltOn (prependTree success depth branch.2 g) ∧
          (prependTree success depth branch.2 g).YieldsExactly
            (prependTree success depth branch.2 g).start (Language payload branch.2) := by
      rintro ⟨b, tails⟩ hbranch g inside hsuccess
      obtain ⟨-, rfl, -⟩ := mem_branches.1 hbranch
      have hshorter : ∀ r ∈ tailsAfter b remainders, r.length ≤ depth := fun r hr =>
        Nat.le_of_succ_le_succ (hdepth (b :: r) (mem_tailsAfter.1 hr))
      obtain ⟨hbuilt, hyields⟩ := ih hshorter inside hsuccess
      exact ⟨hbuilt, Graph.start_lt _, hyields⟩
    obtain ⟨hbuilt, hyields⟩ := Graph.yields_branching_iff
      (fun g tails =>
        (prependTree success depth tails g, (prependTree success depth tails g).start))
      htarget inside hsuccess hsuccess.some_lt (endings_lt remainders g.nodes.size)
    refine ⟨hbuilt, fun read p => ?_⟩
    rw [language_iff, prependTree, hyields]
    simp only [yields_otherwise_iff hsuccess]

/-- **The automaton for all values but some** yields its payload behind the first byte that departs
from all of them. -/
theorem yields_automaton_iff :
    (automaton excluded payload).Yields read p ↔
      p = payload ∧ (∀ b ∈ read, InAlphabet b) ∧ Departs excluded read := by
  have inside : (Graph.accept payload).seal.StepsInside := Graph.stepsInside_single _
  have hsuccess : (Graph.accept payload).YieldsExactly (Graph.accept payload).start
      fun read p => read = [] ∧ p = payload :=
    ⟨Graph.start_lt _, fun read p => Graph.yields_accept_iff⟩
  exact (yields_prependTree_iff (maxLength excluded) (fun e he => length_le_maxLength he)
    inside hsuccess).2 read p

/-- Within a word of bytes of the alphabet that has a terminator at its end at most, the payload is
yielded if the word departs. -/
theorem exists_yields_iff (hbytes : ∀ b ∈ word, InAlphabet b) (hword : terminator ∉ word.dropLast) :
    (∃ read, read <+: word ∧ (automaton excluded payload).Yields read p) ↔
      p = payload ∧ word ≠ [] ∧ ∀ e ∈ excluded, ¬ word <+: e ∧ e ++ [terminator] ≠ word := by
  rw [← exists_departs_iff hword]
  simp only [yields_automaton_iff]
  refine ⟨?_, ?_⟩
  · rintro ⟨read, hread, rfl, -, hdeparts⟩
    exact ⟨rfl, read, hread, hdeparts⟩
  · rintro ⟨rfl, read, hread, hdeparts⟩
    exact ⟨read, hread, rfl, fun b hb => hbytes b (hread.subset hb), hdeparts⟩

end Automaton

end ByteMatch.Exclusion
