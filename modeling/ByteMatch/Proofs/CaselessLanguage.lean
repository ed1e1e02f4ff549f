import ByteMatch.Pattern.Caseless
import ByteMatch.Proofs.Branching

/-!
# The language of a text in which case does not count

A choice of byte strings put in front is read string by string as its branches go, and a branch ends
where one of the strings on it ends, whatever longer ones there may be. So what is read for a choice
is one of its strings that goes on none of the others (`Caseless.Chosen`), and the automaton of a text
yields its payload behind one such encoding for each of its characters and a terminator
(`Caseless.yields_automaton_iff`).
-/

namespace ByteMatch.Caseless

variable {α : Type} {choices : List Bytes} {chosen read rest : Bytes} {b : UInt8}

/-! ### Choices -/

/-- What is read for a choice: one of its strings, all in the alphabet, that no other one of them
begins. -/
structure Chosen (choices : List Bytes) (chosen : Bytes) : Prop where
  mem : chosen ∈ choices
  inAlphabet : ∀ b ∈ chosen, InAlphabet b
  shortest : ∀ other ∈ choices, other <+: chosen → other = chosen

/-- Where one of the strings ends, nothing more is read. -/
private theorem chosen_iff_of_nil_mem (h : [] ∈ choices) : Chosen choices chosen ↔ chosen = [] := by
  refine ⟨fun hchosen => (hchosen.shortest [] h List.nil_prefix).symm, ?_⟩
  rintro rfl
  exact ⟨h, fun b hb => absurd hb List.not_mem_nil, fun other _ => List.prefix_nil.1⟩

/-- Where none of them ends, a byte is read and one of the strings that go on with it is chosen. -/
theorem chosen_cons_iff : Chosen choices (b :: rest) ↔
    InAlphabet b ∧ [] ∉ choices ∧ Chosen (tailsAfter b choices) rest := by
  refine ⟨fun h => ⟨h.inAlphabet b List.mem_cons_self, fun hnil => ?_, ?_⟩, ?_⟩
  · exact List.cons_ne_nil b rest (h.shortest [] hnil List.nil_prefix).symm
  · refine ⟨mem_tailsAfter.2 h.mem, fun c hc => h.inAlphabet c (List.mem_cons_of_mem b hc), ?_⟩
    -- a shorter one behind the byte would make a shorter one with it
    intro tail htail hprefix
    exact (List.cons.inj
      (h.shortest (b :: tail) (mem_tailsAfter.1 htail) ((List.prefix_cons_inj b).2 hprefix))).2
  · rintro ⟨hb, hnil, h⟩
    refine ⟨mem_tailsAfter.1 h.mem, List.forall_mem_cons.2 ⟨hb, h.inAlphabet⟩, ?_⟩
    intro other hother hprefix
    -- another one that is as short begins with the same byte, since none is empty
    cases other with
    | nil => exact absurd hother hnil
    | cons c tail =>
      obtain ⟨rfl, htail⟩ := List.cons_prefix_cons.1 hprefix
      rw [h.shortest tail (mem_tailsAfter.2 hother) htail]

/-! ### What a choice put in front yields -/

section Choice

variable {g : Graph α} {target : StateId} {p : α} {G : Bytes → α → Prop}

/-- What is yielded behind a choice. -/
def Language (G : Bytes → α → Prop) (choices : List Bytes) (read : Bytes) (p : α) : Prop :=
  ∃ chosen rest, read = chosen ++ rest ∧ Chosen choices chosen ∧ G rest p

private theorem language_iff_of_nil_mem (h : [] ∈ choices) :
    Language G choices read p ↔ G read p := by
  unfold Language
  simp only [chosen_iff_of_nil_mem h]
  refine ⟨?_, fun hread => ⟨[], read, rfl, rfl, hread⟩⟩
  rintro ⟨_, rest, rfl, rfl, hrest⟩
  exact hrest

theorem language_iff (h : [] ∉ choices) :
    Language G choices read p ↔ ∃ b rest, read = b :: rest ∧ InAlphabet b ∧
      Language G (tailsAfter b choices) rest p := by
  refine ⟨?_, ?_⟩
  · rintro ⟨chosen, more, rfl, hchosen, hmore⟩
    cases chosen with
    | nil => exact absurd hchosen.mem h
    | cons b rest =>
      obtain ⟨hb, -, hrest⟩ := chosen_cons_iff.1 hchosen
      exact ⟨b, rest ++ more, rfl, hb, rest, more, rfl, hrest, hmore⟩
  · rintro ⟨b, _, rfl, hb, rest, more, rfl, hrest, hmore⟩
    exact ⟨b :: rest, more, rfl, chosen_cons_iff.2 ⟨hb, h, hrest⟩, hmore⟩

/-- Where nothing is left to choose from, nothing is yielded. -/
theorem not_language_nil : ¬ Language G [] read p := by
  rintro ⟨chosen, rest, -, hchosen, -⟩
  exact List.not_mem_nil hchosen.mem

/-- **A choice put in front** yields what its target yields behind one of the strings chosen. -/
theorem yields_prependChoice_iff (depth : Nat) (hdepth : ∀ c ∈ choices, c.length ≤ depth)
    (hsome : choices ≠ []) (hnil : [] ∉ choices) (inside : g.seal.StepsInside)
    (htarget : g.YieldsExactly target G) :
    g.BuiltOn (prependChoice target depth choices g) ∧
      ∀ read p, (prependChoice target depth choices g).seal.Yields read p ↔
        Language G choices read p := by
  induction depth generalizing choices g with
  | zero =>
    -- there is a string, and it is not empty
    obtain ⟨c, hc⟩ := List.exists_mem_of_ne_nil _ hsome
    have hempty : c = [] := List.length_eq_zero_iff.1 (Nat.le_zero.1 (hdepth c hc))
    exact absurd (hempty ▸ hc) hnil
  | succ depth ih =>
    have hbranch : ∀ branch ∈ branches choices, ∀ g : Graph α, g.seal.StepsInside →
        g.YieldsExactly target G →
        let built := if [] ∈ branch.2 then (g, target) else
          (prependChoice target depth branch.2 g, (prependChoice target depth branch.2 g).start)
        g.BuiltOn built.1 ∧ built.1.YieldsExactly built.2 (Language G branch.2) := by
      rintro ⟨b, tails⟩ hbranch g inside htarget
      obtain ⟨-, rfl, htails⟩ := mem_branches.1 hbranch
      dsimp only
      split
      · -- one of the strings ends here, and the target follows at once
        next hend =>
        exact ⟨.refl inside, htarget.lt, fun read p => by
          rw [htarget.iff, language_iff_of_nil_mem hend]⟩
      · -- all of them go on, and what is left of each is shorter
        next hgoes =>
        have hshorter : ∀ c ∈ tailsAfter b choices, c.length ≤ depth := fun c hc =>
          Nat.le_of_succ_le_succ (hdepth (b :: c) (mem_tailsAfter.1 hc))
        obtain ⟨hbuilt, hyields⟩ := ih hshorter htails hgoes inside htarget
        exact ⟨hbuilt, Graph.start_lt _, hyields⟩
    -- a byte with which no string goes on leads nowhere
    have hnone : ∀ n, (none : Option StateId) = some n → n < g.nodes.size := by
      intro n hn
      contradiction
    have hothers : ∀ entry ∈ ([] : List (UInt8 × Option StateId)), ∀ n, entry.2 = some n →
        n < g.nodes.size := fun entry hentry => absurd hentry List.not_mem_nil
    obtain ⟨hbuilt, hyields⟩ := Graph.yields_branching_iff
      (fun g tails => if [] ∈ tails then (g, target) else
        (prependChoice target depth tails g, (prependChoice target depth tails g).start))
      hbranch inside htarget hnone hothers
    refine ⟨hbuilt, fun read p => ?_⟩
    rw [language_iff hnil]
    refine (hyields read p).trans ?_
    refine exists_congr fun b => exists_congr fun rest => and_congr_right fun _ =>
      and_congr_right fun _ => ?_
    split
    · next htails =>
      rw [htails]
      refine iff_of_false ?_ not_language_nil
      rintro ⟨n, hn, -⟩
      contradiction
    · rfl

end Choice

/-! ### Texts -/

section Text

variable {g : Graph α} {cases : CaseMap} {text : List Char} {payload p : α}

/-- The encodings of the forms of a character. -/
def encodings (cases : CaseMap) (c : Char) : List Bytes := (cases.forms c).map String.utf8EncodeChar

/-- A text is spelled by an encoding for each of its characters. -/
def Spells (cases : CaseMap) : List Char → Bytes → Prop
  | [], spelled => spelled = []
  | c :: text, spelled =>
    ∃ chosen rest, spelled = chosen ++ rest ∧ Chosen (encodings cases c) chosen ∧
      Spells cases text rest

private theorem encodings_ne_nil (cases : CaseMap) (c : Char) : encodings cases c ≠ [] := by
  have hform : c ∈ cases.forms c := List.mem_eraseDups.2 List.mem_cons_self
  exact List.ne_nil_of_mem (List.mem_map_of_mem hform)

private theorem nil_not_mem_encodings (cases : CaseMap) (c : Char) : [] ∉ encodings cases c := by
  intro h
  obtain ⟨d, -, hd⟩ := List.mem_map.1 h
  -- each character takes up a byte at least
  have hlength : (String.utf8EncodeChar d).length = 0 := by rw [hd, List.length_nil]
  have hpos := Char.utf8Size_pos d
  rw [String.length_utf8EncodeChar] at hlength
  omega

/-- **A character put in front** is read in any of its encodings. -/
theorem yields_prependChar_iff (cases : CaseMap) (c : Char) (inside : g.seal.StepsInside) :
    g.BuiltOn (prependChar cases c g) ∧ ∀ read p, (prependChar cases c g).seal.Yields read p ↔
      Language g.seal.Yields (encodings cases c) read p :=
  yields_prependChoice_iff _ (fun _ h => length_le_maxLength h) (encodings_ne_nil cases c)
    (nil_not_mem_encodings cases c) inside ⟨g.start_lt, fun _ _ => Iff.rfl⟩

theorem yields_prependText_iff (inside : g.seal.StepsInside) (text : List Char) :
    (text.foldr (prependChar cases) g).seal.StepsInside ∧
      ∀ read p, (text.foldr (prependChar cases) g).seal.Yields read p ↔
        ∃ spelled rest, read = spelled ++ rest ∧ Spells cases text spelled ∧
          g.seal.Yields rest p := by
  induction text with
  | nil =>
    refine ⟨inside, fun read p => ⟨fun h => ⟨[], read, rfl, rfl, h⟩, ?_⟩⟩
    rintro ⟨_, rest, rfl, rfl, h⟩
    exact h
  | cons c text ih =>
    obtain ⟨hinside, hyields⟩ := ih
    obtain ⟨hbuilt, hchar⟩ := yields_prependChar_iff cases c hinside
    refine ⟨hbuilt.inside, fun read p => ?_⟩
    -- the first character is spelled in front of a spelling of the others
    rw [List.foldr_cons, hchar]
    unfold Language
    simp only [hyields]
    refine ⟨?_, ?_⟩
    · rintro ⟨chosen, _, rfl, hchosen, spelled, rest, rfl, hspells, h⟩
      exact ⟨chosen ++ spelled, rest, (List.append_assoc _ _ _).symm,
        ⟨chosen, spelled, rfl, hchosen, hspells⟩, h⟩
    · rintro ⟨_, rest, rfl, ⟨chosen, spelled, rfl, hchosen, hspells⟩, h⟩
      exact ⟨chosen, spelled ++ rest, List.append_assoc _ _ _, hchosen, spelled, rest, rfl, hspells,
        h⟩

/-- **The automaton of a text** yields its payload for the symbols of its spellings. -/
theorem yields_automaton_iff :
    (automaton cases text payload).Yields read p ↔
      p = payload ∧ ∃ spelled, read = symbols spelled ∧ Spells cases text spelled := by
  have hsingle : (Graph.accept payload).seal.StepsInside := Graph.stepsInside_single _
  rw [automaton, (yields_prependText_iff (Graph.stepsInside_prependEnd hsingle) text).2]
  simp only [Graph.yields_prependEnd_iff hsingle, Graph.yields_accept_iff]
  refine ⟨?_, ?_⟩
  · rintro ⟨spelled, _, rfl, hspells, _, rfl, rfl, rfl⟩
    exact ⟨rfl, spelled, rfl, hspells⟩
  · rintro ⟨rfl, spelled, rfl, hspells⟩
    exact ⟨spelled, [terminator], rfl, hspells, [], rfl, rfl, rfl⟩

end Text

end ByteMatch.Caseless
