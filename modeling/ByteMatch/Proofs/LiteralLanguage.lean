import ByteMatch.Proofs.BuiltInside

/-!
# The languages of whole values and of beginnings

Bytes put in front are read one by one, and if one of them is outside the alphabet, nothing is read
at all (`Graph.yields_prependBytes_iff`). So the automaton for a whole value yields its payload behind
the value and a terminator (`Literal.yields_whole_iff`), and the one for a beginning behind one byte
more than the beginning, whatever that byte is (`Literal.yields_beginning_iff`).
-/

namespace ByteMatch

variable {α : Type} {read bytes : Bytes} {payload p : α}

theorem Graph.yields_prependBytes_iff {g : Graph α} (inside : g.seal.StepsInside) :
    (g.prependBytes bytes).seal.Yields read p ↔
      (∀ b ∈ bytes, InAlphabet b) ∧ ∃ rest, read = bytes ++ rest ∧ g.seal.Yields rest p := by
  induction bytes generalizing read with
  | nil => simp [prependBytes]
  | cons b bytes ih =>
    have hinside : (g.prependBytes bytes).seal.StepsInside :=
      Literal.stepsInside_prependBytes inside bytes
    have hcons : g.prependBytes (b :: bytes) = (g.prependBytes bytes).prependByte b := rfl
    rw [hcons, yields_prependByte_iff hinside, List.forall_mem_cons, and_assoc]
    refine and_congr_right fun _ => ?_
    refine ⟨?_, ?_⟩
    · -- behind the byte in front, the others are read in order
      rintro ⟨rest, rfl, hyields⟩
      obtain ⟨hbytes, more, rfl, hmore⟩ := ih.1 hyields
      exact ⟨hbytes, more, rfl, hmore⟩
    · rintro ⟨hbytes, more, rfl, hmore⟩
      exact ⟨bytes ++ more, rfl, ih.2 ⟨hbytes, more, rfl, hmore⟩⟩

namespace Literal

/-- **The automaton for a whole value** yields its payload for the symbols of the value. -/
theorem yields_whole_iff :
    (whole bytes payload).Yields read p ↔
      p = payload ∧ (∀ b ∈ bytes, InAlphabet b) ∧ read = symbols bytes := by
  have hsingle : (Graph.accept payload).seal.StepsInside := Graph.stepsInside_single _
  rw [whole, Graph.yields_prependBytes_iff (Graph.stepsInside_prependEnd hsingle)]
  simp only [Graph.yields_prependEnd_iff hsingle, Graph.yields_accept_iff]
  refine ⟨?_, ?_⟩
  · rintro ⟨hbytes, _, rfl, _, rfl, rfl, rfl⟩
    exact ⟨rfl, hbytes, rfl⟩
  · rintro ⟨rfl, hbytes, rfl⟩
    exact ⟨hbytes, [terminator], rfl, [], rfl, rfl, rfl⟩

/-- Any byte of the alphabet is read in front. -/
theorem yields_prependAny_iff {g : Graph α} (inside : g.seal.StepsInside) :
    (prependAny g).seal.Yields read p ↔
      ∃ b rest, read = b :: rest ∧ InAlphabet b ∧ g.seal.Yields rest p := by
  rw [prependAny, Graph.yields_prependSteps_iff inside g.lt_size_of_start (by simp)]
  refine exists_congr fun b => exists_congr fun rest => and_congr_right fun _ =>
    and_congr_right fun _ => ?_
  refine ⟨?_, fun h => ⟨g.start, rfl, h⟩⟩
  rintro ⟨n, hn, h⟩
  obtain rfl := Option.some.inj hn
  exact h

/-- **The automaton for a beginning** yields its payload behind any byte of the alphabet that follows
the beginning. -/
theorem yields_beginning_iff :
    (beginning bytes payload).Yields read p ↔
      p = payload ∧ (∀ b ∈ bytes, InAlphabet b) ∧ ∃ b, InAlphabet b ∧ read = bytes ++ [b] := by
  have hsingle : (Graph.accept payload).seal.StepsInside := Graph.stepsInside_single _
  rw [beginning, Graph.yields_prependBytes_iff (stepsInside_prependAny hsingle)]
  simp only [yields_prependAny_iff hsingle, Graph.yields_accept_iff]
  refine ⟨?_, ?_⟩
  · -- the byte behind the beginning is the last one, since the accepting state reads nothing
    rintro ⟨hbytes, _, rfl, b, _, rfl, hb, rfl, rfl⟩
    exact ⟨rfl, hbytes, b, hb, rfl⟩
  · rintro ⟨rfl, hbytes, b, hb, rfl⟩
    exact ⟨hbytes, [b], rfl, b, [], rfl, hb, rfl, rfl⟩

end Literal

end ByteMatch
