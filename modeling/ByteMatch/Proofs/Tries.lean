import ByteMatch.Pattern
import ByteMatch.Proofs.Expansions
import ByteMatch.Proofs.UnionStates
import Mathlib.Data.Finset.Card

/-!
# Uniting whole values builds a trie

The automaton of a whole value is a chain: it has a state for each beginning of the value with its
terminator, and one way to each of them. When such chains are united, what they begin with in common
becomes one path. However many there are, and in whatever order they come, the union is the trie of
the values (`Automaton.IsTrie`): the words that can be read in it are the beginnings of the values,
and each has a state of its own. So the states can be counted (`Automaton.IsTrie.size_eq`).

* `Graph.isTrie_prependByte` puts one byte in front of all words of a trie, which makes the chains
  (`Literal.isTrie_whole`).
* `Automaton.isTrie_union`: the union of two tries is the trie of the words of both. Reading a word
  takes the union to the state for the pair of states to which it takes the two parts
  (`Union.stateAfter_union`). If one state is left of the pair, then it tells which word has been
  read, so that no other word leads there.
-/

namespace ByteMatch

variable {α : Type} {word word' bytes rest : Bytes} {b : UInt8}

/-! ### Where a word leads -/

namespace Automaton

/-- The state to which a word leads from the start, epsilon edges being left aside. -/
def stateAfter (fa : Automaton α) (word : Bytes) : Option StateId :=
  word.foldl fa.stepFrom (some fa.start)

variable {fa : Automaton α} {s t : StateId}

theorem stateAfter_concat (fa : Automaton α) (word : Bytes) (b : UInt8) :
    fa.stateAfter (word ++ [b]) = fa.stepFrom (fa.stateAfter word) b := by
  rw [stateAfter, List.foldl_append]
  rfl

private theorem stateAfter_cons_of_none (h : fa.step fa.start b = none) :
    fa.stateAfter (b :: rest) = none := by
  rw [stateAfter, List.foldl_cons, stepFrom, Option.bind_some, h]
  -- once it has died out, a walk stays so
  induction rest with
  | nil => rfl
  | cons c rest ih => exact ih

private theorem stateAfter_cons_of_some (h : fa.step fa.start b = some s) :
    fa.stateAfter (b :: rest) = rest.foldl fa.stepFrom (some s) := by
  rw [stateAfter, List.foldl_cons, stepFrom, Option.bind_some, h]

theorem stateAfter_lt (inside : fa.StepsInside) (h : fa.stateAfter word = some s) :
    s < fa.size := by
  -- the last byte read leads inside, and if there is none it is the start
  cases word using List.reverseRecOn with
  | nil =>
    obtain rfl := Option.some.inj h
    exact fa.start_lt
  | append_singleton rest b _ =>
    rw [stateAfter_concat] at h
    exact (inside.of_stepFrom h).2

/-- Without epsilon edges there is one way to read a word. -/
theorem foldl_stepFrom_of_path (hdet : fa.deterministic = true) (h : fa.Path s word t) :
    word.foldl fa.stepFrom (some s) = some t := by
  induction h with
  | refl => rfl
  | epsilon he _ _ =>
    rw [epsilonTargets_eq_nil hdet] at he
    exact absurd he List.not_mem_nil
  | byte hstep _ ih => rw [List.foldl_cons, stepFrom, Option.bind_some, hstep, ih]

/-! ### Tries -/

/-- **The automaton is the trie of these words**: a word can be read if it is one of them, different
words lead to different states, and there are no other states. -/
structure IsTrie (fa : Automaton α) (words : Finset Bytes) : Prop where
  inside : fa.StepsInside
  deterministic : fa.deterministic = true
  isSome_iff : ∀ word, (fa.stateAfter word).isSome ↔ word ∈ words
  apart : ∀ word word' s, fa.stateAfter word = some s → fa.stateAfter word' = some s → word = word'
  reached : ∀ s < fa.size, ∃ word, fa.stateAfter word = some s

variable {words : Finset Bytes}

/-- The words lead to all states, and to nothing else. -/
theorem IsTrie.image_stateAfter (h : fa.IsTrie words) :
    words.image fa.stateAfter = (Finset.range fa.size).image some := by
  -- every word that can be read leads to a state, and every state is reached by a word
  ext state
  rw [Finset.mem_image, Finset.mem_image]
  constructor
  · intro hstate
    obtain ⟨word, hword, rfl⟩ := hstate
    obtain ⟨s, hs⟩ := Option.isSome_iff_exists.1 ((h.isSome_iff word).2 hword)
    exact ⟨s, Finset.mem_range.2 (stateAfter_lt h.inside hs), hs.symm⟩
  · intro hstate
    obtain ⟨s, hs, rfl⟩ := hstate
    obtain ⟨word, hword⟩ := h.reached s (Finset.mem_range.1 hs)
    exact ⟨word, (h.isSome_iff word).1 (Option.isSome_of_eq_some hword), hword⟩

/-- **A trie has a state for each word.** -/
theorem IsTrie.size_eq (h : fa.IsTrie words) : fa.size = words.card := by
  -- so words and states correspond, and there are as many of the ones as of the others
  have happart : Set.InjOn fa.stateAfter words := by
    intro word hword word' _ heq
    obtain ⟨s, hs⟩ := Option.isSome_iff_exists.1 ((h.isSome_iff word).2 hword)
    exact h.apart word word' s hs (heq ▸ hs)
  calc fa.size
      = ((Finset.range fa.size).image some).card := by
        rw [Finset.card_image_of_injective _ (Option.some_injective _), Finset.card_range]
    _ = (words.image fa.stateAfter).card := by rw [h.image_stateAfter]
    _ = words.card := Finset.card_image_of_injOn happart

end Automaton

/-! ### Chains -/

namespace Graph

variable {g g' : Graph α} {words : Finset Bytes} {s : StateId}

private theorem stateAfter_single_cons (payloads : List α) (b : UInt8) (rest : Bytes) :
    (single payloads).seal.stateAfter (b :: rest) = none :=
  Automaton.stateAfter_cons_of_none (Table.step_empty b)

/-- A single state is the trie of the empty word. -/
theorem isTrie_single (payloads : List α) : (single payloads).seal.IsTrie {[]} where
  inside := stepsInside_single payloads
  deterministic := by simp [Automaton.deterministic, Graph.seal, single, Table.empty, Table.uniform]
  isSome_iff word := by
    cases word with
    | nil => exact iff_of_true rfl (Finset.mem_singleton_self _)
    | cons b rest =>
      rw [stateAfter_single_cons, Finset.mem_singleton]
      exact iff_of_false Bool.false_ne_true (List.cons_ne_nil _ _)
  apart word word' s hword hword' := by
    cases word with
    | nil =>
      cases word' with
      | nil => rfl
      | cons b rest =>
        rw [stateAfter_single_cons] at hword'
        contradiction
    | cons b rest =>
      rw [stateAfter_single_cons] at hword
      contradiction
  reached s hs := by
    -- the one state is reached by reading nothing
    have hsize : (single payloads).seal.size = 1 := rfl
    rw [hsize, Nat.lt_one_iff] at hs
    exact ⟨[], congrArg some hs.symm⟩

/-- Words are read as before from the states that were there. -/
theorem Extends.foldl_stepFrom (h : g.Extends g') (inside : g.seal.StepsInside)
    {state : Option StateId} (hstate : ∀ s, state = some s → s < g.nodes.size) (word : Bytes) :
    word.foldl g'.seal.stepFrom state = word.foldl g.seal.stepFrom state := by
  induction word generalizing state with
  | nil => rfl
  | cons b rest ih =>
    have hstep : g'.seal.stepFrom state b = g.seal.stepFrom state b := by
      cases state with
      | none => rfl
      | some s => exact h.step_eq (hstate s rfl) b
    rw [List.foldl_cons, List.foldl_cons, hstep]
    -- the byte leads to a state that was there
    exact ih fun n hn => (inside.of_stepFrom hn).2

/-! The byte in front is asked for by the new start. -/

theorem size_prependByte (g : Graph α) (b : UInt8) :
    (g.prependByte b).seal.size = g.seal.size + 1 := Array.size_push _

theorem extends_prependByte (g : Graph α) (b : UInt8) : g.Extends (g.prependByte b) :=
  extends_prepend (h := fun _ he => absurd he List.not_mem_nil)

theorem step_start_prependByte (hb : InAlphabet b) (c : UInt8) :
    (g.prependByte b).seal.step (g.prependByte b).seal.start c =
      if c = b then some g.start else none := by
  have hstep : (g.prependByte b).seal.step (g.prependByte b).seal.start c =
      (Table.ofEntries none [(b, some g.start)]).step c := by
    rw [prependByte, if_pos hb]
    exact step_start_prepend c
  -- the table of the new start has one entry, which is for `b`
  rw [hstep, Table.step_ofEntries, Table.lastTarget_singleton]
  by_cases hc : c = b
  · rw [if_pos hc, hc, if_pos hb, if_pos rfl]
  · have hne : b.toNat ≠ c.toNat := fun heq => hc (UInt8.toNat_inj.1 heq).symm
    rw [if_neg hc, if_neg hne, ite_self]

private theorem stateAfter_prependByte (hb : InAlphabet b) (inside : g.seal.StepsInside)
    (rest : Bytes) : (g.prependByte b).seal.stateAfter (b :: rest) = g.seal.stateAfter rest := by
  have hstep : (g.prependByte b).seal.step (g.prependByte b).seal.start b = some g.start := by
    rw [step_start_prependByte hb, if_pos rfl]
  rw [Automaton.stateAfter_cons_of_some hstep,
    (extends_prependByte g b).foldl_stepFrom inside g.lt_size_of_start]
  rfl

private theorem stateAfter_prependByte_of_ne (hb : InAlphabet b) {c : UInt8} (hc : c ≠ b)
    (rest : Bytes) : (g.prependByte b).seal.stateAfter (c :: rest) = none :=
  Automaton.stateAfter_cons_of_none ((step_start_prependByte hb c).trans (if_neg hc))

/-- A word that leads somewhere is empty or begins with the byte. -/
theorem stateAfter_prependByte_cases (hb : InAlphabet b) (inside : g.seal.StepsInside)
    (h : (g.prependByte b).seal.stateAfter word = some s) :
    word = [] ∧ s = g.nodes.size ∨
      ∃ rest, word = b :: rest ∧ g.seal.stateAfter rest = some s ∧ s < g.nodes.size := by
  cases word with
  | nil => exact .inl ⟨rfl, (Option.some.inj h).symm⟩
  | cons c rest =>
    by_cases hc : c = b
    · subst hc
      rw [stateAfter_prependByte hb inside] at h
      exact .inr ⟨rest, rfl, h, Automaton.stateAfter_lt inside h⟩
    · rw [stateAfter_prependByte_of_ne hb hc] at h
      contradiction

/-- **A byte in front** of all words of a trie. -/
theorem isTrie_prependByte (hb : InAlphabet b) (h : g.seal.IsTrie words) :
    (g.prependByte b).seal.IsTrie (insert [] (words.image (b :: ·))) where
  inside := stepsInside_prependByte h.inside b
  deterministic := by
    show (g.nodes.push _).all _ = true
    rw [Array.all_push]
    exact Bool.and_eq_true_iff.2 ⟨h.deterministic, rfl⟩
  isSome_iff word := by
    rw [Finset.mem_insert, Finset.mem_image]
    cases word with
    | nil => exact iff_of_true rfl (.inl rfl)
    | cons c rest =>
      by_cases hc : c = b
      · subst hc
        rw [stateAfter_prependByte hb h.inside, h.isSome_iff]
        simp
      · rw [stateAfter_prependByte_of_ne hb hc]
        simp [Ne.symm hc]
  apart word word' s hword hword' := by
    -- the new start is told from the others by its number
    cases stateAfter_prependByte_cases hb h.inside hword with
    | inl hfirst =>
      obtain ⟨rfl, rfl⟩ := hfirst
      cases stateAfter_prependByte_cases hb h.inside hword' with
      | inl hfirst' => exact hfirst'.1.symm
      | inr hrest' =>
        obtain ⟨-, -, -, hlt⟩ := hrest'
        exact absurd hlt (Nat.lt_irrefl _)
    | inr hrest =>
      obtain ⟨rest, rfl, hrest, hlt⟩ := hrest
      cases stateAfter_prependByte_cases hb h.inside hword' with
      | inl hfirst' => exact absurd hfirst'.2 (Nat.ne_of_lt hlt)
      | inr hrest' =>
        obtain ⟨rest', rfl, hrest', -⟩ := hrest'
        rw [h.apart rest rest' s hrest hrest']
  reached s hs := by
    rw [size_prependByte] at hs
    -- an old state is reached behind the byte, the new start at once
    rcases Nat.lt_succ_iff_lt_or_eq.1 hs with hs | rfl
    · obtain ⟨word, hword⟩ := h.reached s hs
      exact ⟨b :: word, (stateAfter_prependByte hb h.inside word).trans hword⟩
    · exact ⟨[], rfl⟩

end Graph

namespace Literal

/-- **The automaton of a whole value** is the trie of the beginnings of its symbols. -/
theorem isTrie_whole (hbytes : ∀ b ∈ bytes, InAlphabet b) (payload : α) :
    (whole bytes payload).IsTrie (symbols bytes).inits.toFinset := by
  induction bytes with
  | nil =>
    have hend := Graph.isTrie_prependByte (b := terminator) (by decide)
      (Graph.isTrie_single [payload])
    rw [← Graph.prependEnd_eq] at hend
    exact hend
  | cons b bytes ih =>
    have hb : InAlphabet b := hbytes b List.mem_cons_self
    have hrest := ih fun c hc => hbytes c (List.mem_cons_of_mem b hc)
    -- a beginning is empty, or the byte with a beginning of the rest behind it
    have hwords : (symbols (b :: bytes)).inits.toFinset =
        insert [] ((symbols bytes).inits.toFinset.image (b :: ·)) := by
      ext word
      simp [symbols]
    rw [hwords]
    exact Graph.isTrie_prependByte hb hrest

end Literal

/-! ### Unions -/

namespace Automaton

variable [DecidableEq α] {a b : Automaton α} {words words' : Finset Bytes}

namespace Union

/-- **Reading a word** takes the union to the state for the pair to which it takes the two parts. -/
theorem stateAfter_union (ha : a.StepsInside) (hb : b.StepsInside) (word : Bytes) :
    Known a b ⟨a.stateAfter word, b.stateAfter word⟩ ∧
      (a.union b).stateAfter word = nameOf a b ⟨a.stateAfter word, b.stateAfter word⟩ := by
  induction word using List.reverseRecOn with
  | nil => exact ⟨known_start a b, (nameOf_start a b).symm⟩
  | append_singleton word byte ih =>
    obtain ⟨hknown, hstate⟩ := ih
    simp only [stateAfter_concat]
    rw [hstate]
    by_cases hbyte : InAlphabet byte
    · exact ⟨known_after hknown hbyte, stepFrom_nameOf hknown hbyte⟩
    · -- a byte that is not read leads nowhere on either side
      rw [ha.stepFrom_eq_none hbyte, hb.stepFrom_eq_none hbyte,
        (stepsInside a b).stepFrom_eq_none hbyte]
      exact ⟨known_dead a b, rfl⟩

omit [DecidableEq α] in
/-- A pair has a state if a state is left of it. -/
theorem isSome_nameOf_iff {p : StatePair} (hp : Known a b p) :
    (nameOf a b p).isSome ↔ p.left.isSome ∨ p.right.isSome := by
  -- a pair that can come up is dead, or has a state and is not
  rcases hp.cases with rfl | ⟨j, hj, hpj⟩
  · rw [nameOf_dead]
    simp [StatePair.dead]
  · have hne : p ≠ StatePair.dead := (mem_pairs_iff_reached.1 (Array.mem_of_getElem? hpj)).2
    refine iff_of_true (Option.isSome_of_eq_some hj) ?_
    by_contra hnone
    rw [not_or, Option.not_isSome_iff_eq_none, Option.not_isSome_iff_eq_none] at hnone
    obtain ⟨left, right⟩ := p
    exact hne (congrArg₂ StatePair.mk hnone.1 hnone.2)

end Union

/-- **The union of two tries** is the trie of the words of both. -/
theorem isTrie_union (ha : a.IsTrie words) (hb : b.IsTrie words') :
    (a.union b).IsTrie (words ∪ words') where
  inside := Union.stepsInside a b
  deterministic := Union.deterministic_union ha.deterministic hb.deterministic
  isSome_iff word := by
    obtain ⟨hknown, hstate⟩ := Union.stateAfter_union ha.inside hb.inside word
    rw [hstate, Union.isSome_nameOf_iff hknown, ha.isSome_iff, hb.isSome_iff, Finset.mem_union]
  apart word word' i hword hword' := by
    obtain ⟨hknown, hstate⟩ := Union.stateAfter_union ha.inside hb.inside word
    obtain ⟨hknown', hstate'⟩ := Union.stateAfter_union ha.inside hb.inside word'
    -- the two words lead to one pair, of which a state is left that either part tells apart
    have hpair := Union.keepsApart_nameOf a b _ _ hknown hknown'
      (by rw [← hstate, ← hstate', hword, hword'])
    have hleft : a.stateAfter word = a.stateAfter word' := congrArg StatePair.left hpair
    have hright : b.stateAfter word = b.stateAfter word' := congrArg StatePair.right hpair
    have hsome : (Union.nameOf a b ⟨a.stateAfter word, b.stateAfter word⟩).isSome :=
      Option.isSome_of_eq_some (hstate ▸ hword)
    rcases (Union.isSome_nameOf_iff hknown).1 hsome with hs | hs
    · obtain ⟨s, hs⟩ := Option.isSome_iff_exists.1 hs
      exact ha.apart word word' s hs (hleft ▸ hs)
    · obtain ⟨s, hs⟩ := Option.isSome_iff_exists.1 hs
      exact hb.apart word word' s hs (hright ▸ hs)
  reached i hi := by
    have hdet := Union.deterministic_union ha.deterministic hb.deterministic
    obtain ⟨word, hpath⟩ := Union.exists_path hi
    exact ⟨word, foldl_stepFrom_of_path hdet hpath⟩

end Automaton

/-! ### Values -/

/-- All beginnings of the words, the empty one and the words themselves among them. -/
def beginnings (words : List Bytes) : Finset Bytes := (words.flatMap List.inits).toFinset

private theorem mem_beginnings {words : List Bytes} :
    word ∈ beginnings words ↔ ∃ w ∈ words, word <+: w := by
  simp [beginnings]

/-- What is read for a value begins the value, or is all of it with the terminator. -/
theorem beginnings_symbols (values : List Bytes) :
    beginnings (values.map symbols) = beginnings values ∪ values.toFinset.image symbols := by
  ext word
  rw [Finset.mem_union, Finset.mem_image, mem_beginnings, mem_beginnings]
  constructor
  · intro h
    obtain ⟨w, hw, hword⟩ := h
    obtain ⟨value, hvalue, rfl⟩ := List.mem_map.1 hw
    -- what is read for the value is all of it with the terminator, or begins the value
    rcases List.prefix_concat_iff.1 hword with rfl | hword
    · exact .inr ⟨value, List.mem_toFinset.2 hvalue, rfl⟩
    · exact .inl ⟨value, hvalue, hword⟩
  · rintro (⟨value, hvalue, hword⟩ | ⟨value, hvalue, rfl⟩)
    · exact ⟨symbols value, List.mem_map_of_mem hvalue, hword.trans (List.prefix_append _ _)⟩
    · exact ⟨symbols value, List.mem_map_of_mem (List.mem_toFinset.1 hvalue), List.prefix_rfl⟩

/-- Without terminators in the values, no symbols of a value begin a value. -/
theorem card_beginnings_symbols {values : List Bytes} (h : ∀ value ∈ values, terminator ∉ value) :
    (beginnings (values.map symbols)).card = (beginnings values).card + values.toFinset.card := by
  -- symbols end in a terminator, and no value has one
  have hdisjoint : Disjoint (beginnings values) (values.toFinset.image symbols) := by
    rw [Finset.disjoint_right]
    intro word hword hbegins
    obtain ⟨value, -, rfl⟩ := Finset.mem_image.1 hword
    obtain ⟨other, hother, hbegins⟩ := mem_beginnings.1 hbegins
    exact h other hother (hbegins.subset (List.mem_append_right value List.mem_cons_self))
  have hinjective : Function.Injective symbols := List.append_left_injective [terminator]
  rw [beginnings_symbols, Finset.card_union_of_disjoint hdisjoint,
    Finset.card_image_of_injective _ hinjective]

namespace Automaton

variable [DecidableEq α] {entries : List (Bytes × α)}

/-- The union of the automata of whole values, each with its payload, one after the other. -/
def ofValues (entries : List (Bytes × α)) : Automaton α :=
  entries.foldl (fun fa entry => fa.union (Literal.whole entry.1 entry.2)) Automaton.empty

/-- **However many values are united**, and in whatever order, the union is the trie of what is read
for them. -/
theorem isTrie_ofValues (hbytes : ∀ entry ∈ entries, ∀ b ∈ entry.1, InAlphabet b) :
    (ofValues entries).IsTrie (insert [] (beginnings ((entries.map Prod.fst).map symbols))) := by
  induction entries using List.reverseRecOn with
  | nil => exact Graph.isTrie_single []
  | append_singleton entries entry ih =>
    have hunion : ofValues (entries ++ [entry]) =
        (ofValues entries).union (Literal.whole entry.1 entry.2) := List.foldl_concat _ _ _ _
    have hold := ih fun other hother => hbytes other (List.mem_append_left _ hother)
    have hnew : (Literal.whole entry.1 entry.2).IsTrie (symbols entry.1).inits.toFinset :=
      Literal.isTrie_whole (hbytes entry (List.mem_append_right _ List.mem_cons_self)) entry.2
    -- the words of the union are those there were and the beginnings of the new value
    have hwords : insert [] (beginnings (((entries ++ [entry]).map Prod.fst).map symbols)) =
        insert [] (beginnings ((entries.map Prod.fst).map symbols)) ∪
          (symbols entry.1).inits.toFinset := by
      ext word
      simp [mem_beginnings, or_and_right, exists_or]
    rw [hunion, hwords]
    exact isTrie_union hold hnew

/-- **Uniting values builds their trie.** Whichever values are united, each with any payload, in any
order and with repetitions, as long as there is one and their bytes are below the terminator: the
union has no epsilon edges, what can be read in it are the beginnings of the values and of their
terminators, and each of these has one state. So there is a state for each different beginning of a
value and one for each different value, and a value that is there already adds none, whatever its
payload. -/
theorem values_build_their_trie (hne : entries ≠ [])
    (hbytes : ∀ entry ∈ entries, ∀ b ∈ entry.1, b < terminator) :
    let fa := ofValues entries
    let values := entries.map Prod.fst
    fa.deterministic = true ∧ fa.IsTrie (beginnings (values.map symbols)) ∧
      fa.size = (beginnings values).card + values.toFinset.card ∧
      ∀ value ∈ values, ∀ payload, (fa.union (Literal.whole value payload)).size = fa.size := by
  intro fa values
  have halphabet : ∀ entry ∈ entries, ∀ b ∈ entry.1, InAlphabet b :=
    fun entry hentry b hb => Glob.inAlphabet_of_lt_terminator (hbytes entry hentry b hb)
  -- there is a value, so the empty word begins one
  have hnil : [] ∈ beginnings (values.map symbols) := by
    obtain ⟨entry, hentry⟩ := List.exists_mem_of_ne_nil entries hne
    exact mem_beginnings.2 ⟨symbols entry.1, List.mem_map_of_mem (List.mem_map_of_mem hentry),
      List.nil_prefix⟩
  have htrie : fa.IsTrie (beginnings (values.map symbols)) := by
    have htrie := isTrie_ofValues halphabet
    rwa [Finset.insert_eq_of_mem hnil] at htrie
  have hend : ∀ value ∈ values, terminator ∉ value := by
    intro value hvalue
    obtain ⟨entry, hentry, rfl⟩ := List.mem_map.1 hvalue
    exact Glob.not_mem_of_lt_terminator (hbytes entry hentry)
  refine ⟨htrie.deterministic, htrie, ?_, ?_⟩
  · rw [htrie.size_eq, card_beginnings_symbols hend]
  · intro value hvalue payload
    obtain ⟨entry, hentry, rfl⟩ := List.mem_map.1 hvalue
    -- united once more, it is the trie of the same words, and so has as many states
    have hagain := isTrie_union htrie (Literal.isTrie_whole (halphabet entry hentry) payload)
    have hsubset : (symbols entry.1).inits.toFinset ⊆ beginnings (values.map symbols) := by
      intro word hword
      rw [List.mem_toFinset, List.mem_inits] at hword
      exact mem_beginnings.2 ⟨_, List.mem_map_of_mem hvalue, hword⟩
    rw [Finset.union_eq_left.2 hsubset] at hagain
    rw [hagain.size_eq, htrie.size_eq]

/-- The values `ab`, `a`, `ab` again and the empty one: three beginnings and three values, which makes
six states. -/
theorem values_build_their_trie_nested :
    let entries : List (Bytes × Nat) := [([97, 98], 1), ([97], 2), ([97, 98], 3), ([], 4)]
    let fa := ofValues entries
    entries ≠ [] ∧ (∀ entry ∈ entries, ∀ b ∈ entry.1, b < terminator) ∧
      fa.deterministic = true ∧ fa.size = 6 ∧
      (fa.union (Literal.whole [97] 5)).size = fa.size := by
  intro entries fa
  have hbytes : ∀ entry ∈ entries, ∀ b ∈ entry.1, b < terminator := by simp [entries, terminator]
  obtain ⟨hdet, -, hsize, hagain⟩ := values_build_their_trie (List.cons_ne_nil _ _) hbytes
  have hcount : (beginnings (entries.map Prod.fst)).card +
      (entries.map Prod.fst).toFinset.card = 6 := by decide +kernel
  exact ⟨List.cons_ne_nil _ _, hbytes, hdet, hsize.trans hcount, hagain [97] (by simp) 5⟩

end Automaton

end ByteMatch
