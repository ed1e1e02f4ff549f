import ByteMatch.Proofs.CaselessLanguage
import ByteMatch.Proofs.PatternData
import ByteMatch.Proofs.ScanLanguage
import ByteMatch.Proofs.UnionPaths

/-!
# Values with bytes outside the alphabet

No table has a step for a byte outside the alphabet, so a walk ends where a value has one. It keeps
what it has collected by then: a walk lists payloads as it comes by them, not at the end of the value.

For most kinds of pattern nothing is collected before the end: their automata yield their payload
behind a terminator only. Two kinds are matched as soon as enough of a value is read. A beginning is,
with any byte behind it, and so are all values but some, with the first byte that leaves all those
listed. `Pattern.MatchedWithin` says this of the part of a value before the byte outside the alphabet,
and `UnionTree.found_before_byte_outside` that a walk through the union of any patterns finds just
those that are matched within that part. The scan for a shell-style pattern looks at the whole value
first and finds none that has such a byte.
-/

namespace ByteMatch

variable {α : Type} {read before after : Bytes} {b : UInt8} {payload p : α}

/-! ### What is read of such a value -/

namespace Automaton

variable {fa : Automaton α}

theorem Path.inAlphabet {s t : StateId} (reads : fa.ReadsAlphabet) (h : fa.Path s read t) :
    ∀ c ∈ read, InAlphabet c := by
  induction h with
  | refl s => exact fun c hc => absurd hc List.not_mem_nil
  | epsilon _ _ ih => exact ih
  | byte hstep _ ih => exact List.forall_mem_cons.2 ⟨reads _ _ _ hstep, ih⟩

theorem Yields.inAlphabet (reads : fa.ReadsAlphabet) (h : fa.Yields read p) :
    ∀ c ∈ read, InAlphabet c := by
  obtain ⟨t, hpath, -⟩ := h
  exact hpath.inAlphabet reads

end Automaton

/-- Only what stands before a byte outside the alphabet is read. -/
theorem prefix_symbols_iff (hb : ¬ InAlphabet b) (hread : ∀ c ∈ read, InAlphabet c) :
    read <+: symbols (before ++ b :: after) ↔ read <+: before := by
  have hsplit : symbols (before ++ b :: after) = (before ++ [b]) ++ symbols after := by
    simp [symbols]
  have hout : b ∉ read := fun hmem => hb (hread b hmem)
  rw [hsplit]
  refine ⟨fun h => ?_, fun h => ?_⟩
  · -- what goes further than the part before the byte has the byte in it
    rcases List.prefix_or_prefix_of_prefix h (List.prefix_append _ _) with h | h
    · rcases List.prefix_concat_iff.1 h with rfl | h
      · exact absurd (List.mem_append_right _ List.mem_cons_self) hout
      · exact h
    · exact absurd (h.subset (List.mem_append_right _ List.mem_cons_self)) hout
  · exact (h.trans (List.prefix_append _ _)).trans (List.prefix_append _ _)

/-! ### Patterns matched within a part -/

/-- The pattern is matched by any value that goes on from `part`, before the end of the value is
read. -/
def Pattern.MatchedWithin (part : Bytes) : Pattern → Prop
  | .beginning bytes => ∃ c, bytes ++ [c] <+: part
  | .noneOf excluded => part ≠ [] ∧ ∀ e ∈ excluded, ¬ part <+: e
  | .exactly _ | .shell _ | .wildcard _ | .caseless _ => False

section Within

variable {part : Bytes}

/-- What ends with a terminator is not read within a part below the terminator. -/
private theorem not_prefix_of_lt_terminator (hpart : ∀ c ∈ part, c < terminator) (bytes : Bytes) :
    ¬ bytes ++ [terminator] <+: part := by
  intro h
  have hmem : terminator ∈ part := h.subset (List.mem_append_right bytes List.mem_cons_self)
  exact Glob.not_mem_of_lt_terminator hpart hmem

private theorem Literal.exists_yields_beginning_iff (hpart : ∀ c ∈ part, c < terminator)
    {bytes : Bytes} :
    (∃ read, read <+: part ∧ (beginning bytes payload).Yields read p) ↔
      p = payload ∧ ∃ c, bytes ++ [c] <+: part := by
  simp only [yields_beginning_iff]
  refine ⟨?_, ?_⟩
  · rintro ⟨_, hread, rfl, -, c, -, rfl⟩
    exact ⟨rfl, c, hread⟩
  · rintro ⟨rfl, c, hread⟩
    have hbytes : ∀ d ∈ bytes ++ [c], InAlphabet d :=
      fun d hd => Glob.inAlphabet_of_lt_terminator (hpart d (hread.subset hd))
    exact ⟨_, hread, rfl, fun d hd => hbytes d (List.mem_append_left _ hd), c,
      hbytes c (List.mem_append_right _ List.mem_cons_self), rfl⟩

private theorem Exclusion.exists_yields_within_iff (hpart : ∀ c ∈ part, c < terminator)
    {excluded : List Bytes} :
    (∃ read, read <+: part ∧ (automaton excluded payload).Yields read p) ↔
      p = payload ∧ part ≠ [] ∧ ∀ e ∈ excluded, ¬ part <+: e := by
  have hend : terminator ∉ part.dropLast :=
    fun h => Glob.not_mem_of_lt_terminator hpart (List.dropLast_subset part h)
  rw [exists_yields_iff (fun c hc => Glob.inAlphabet_of_lt_terminator (hpart c hc)) hend]
  -- with a terminator behind it, no value listed is the part
  have hapart : ∀ e : Bytes, e ++ [terminator] ≠ part :=
    fun e h => not_prefix_of_lt_terminator hpart e (h ▸ List.prefix_rfl)
  simp only [and_iff_left (hapart _)]

/-- **Within a part** that has only bytes below the terminator, a pattern yields its payload if it is
matched there. -/
theorem Pattern.exists_yields_iff_matchedWithin {pattern : Pattern} {fa : Automaton α}
    (hfa : pattern.automaton payload = .ok fa) (hpart : ∀ c ∈ part, c < terminator) :
    (∃ read, read <+: part ∧ fa.Yields read p) ↔ p = payload ∧ pattern.MatchedWithin part := by
  -- for most kinds, all that is read ends with a terminator
  have hnone : ∀ fa : Automaton α,
      (∀ read, fa.Yields read p → ∃ bytes, read = bytes ++ [terminator]) →
        ((∃ read, read <+: part ∧ fa.Yields read p) ↔ p = payload ∧ False) := by
    intro fa hends
    refine iff_of_false ?_ fun h => h.2
    rintro ⟨read, hread, hyields⟩
    obtain ⟨bytes, rfl⟩ := hends read hyields
    exact not_prefix_of_lt_terminator hpart bytes hread
  have hglob : ∀ (glob : Glob) (read : Bytes), (glob.automaton payload).Yields read p →
      ∃ bytes, read = bytes ++ [terminator] := by
    intro glob read hyields
    obtain ⟨-, bytes, hread, -⟩ := Glob.yields_automaton_iff.1 hyields
    exact ⟨bytes, hread⟩
  cases pattern with
  | exactly bytes =>
    obtain rfl := Except.ok.inj hfa
    exact hnone _ fun read hyields => ⟨bytes, (Literal.yields_whole_iff.1 hyields).2.2⟩
  | beginning bytes =>
    obtain rfl := Except.ok.inj hfa
    exact Literal.exists_yields_beginning_iff hpart
  | shell pattern =>
    obtain rfl := Except.ok.inj hfa
    exact hnone _ (hglob _)
  | wildcard pattern =>
    obtain ⟨glob, -, rfl⟩ := map_eq_ok_iff.1 hfa
    exact hnone _ (hglob glob)
  | caseless text =>
    obtain rfl := Except.ok.inj hfa
    refine hnone _ fun read hyields => ?_
    obtain ⟨-, spelled, hread, -⟩ := Caseless.yields_automaton_iff.1 hyields
    exact ⟨spelled, hread⟩
  | noneOf excluded =>
    obtain rfl := Except.ok.inj hfa
    exact Exclusion.exists_yields_within_iff hpart

end Within

/-! ### Unions of patterns -/

variable [DecidableEq α]

/-- The automata united are those of these patterns with these payloads, in this order. -/
def UnionTree.Unites (tree : UnionTree α) (entries : List (Pattern × α)) : Prop :=
  List.Forall₂ (fun entry fa => entry.1.automaton entry.2 = .ok fa) entries tree.leaves

/-- Related lists agree on whether some entry has the property. -/
private theorem exists_mem_iff_of_forall₂ {β γ : Type} {R : β → γ → Prop} {P : β → Prop}
    {Q : γ → Prop} {xs : List β} {ys : List γ} (h : List.Forall₂ R xs ys)
    (hiff : ∀ x y, R x y → (Q y ↔ P x)) :
    (∃ y ∈ ys, Q y) ↔ ∃ x ∈ xs, P x := by
  induction h with
  | nil => simp
  | cons hxy _ ih => simp only [List.exists_mem_cons_iff, hiff _ _ hxy, ih]

namespace UnionTree

variable {tree : UnionTree α} {entries : List (Pattern × α)}

omit [DecidableEq α] in
theorem Unites.inside (h : tree.Unites entries) : ∀ fa ∈ tree.leaves, fa.StepsInside := by
  -- each automaton has a pattern, and steps stay inside those of patterns
  have hflipped : List.Forall₂ (fun fa (entry : Pattern × α) =>
      fa.StepsInside ∧ entry.1.automaton entry.2 = .ok fa) tree.leaves entries :=
    (h.imp fun _ _ hfa => ⟨Pattern.stepsInside hfa, hfa⟩).flip
  exact ((List.forall₂_and_left _ _).1 hflipped).1

/-- What is found in a value with a byte outside the alphabet. -/
theorem Unites.mem_traverse_iff (h : tree.Unites entries) (hb : ¬ InAlphabet b)
    (hbefore : ∀ c ∈ before, c < terminator) {threshold : Nat} {incoming found : List α}
    (hfound : tree.automaton.traverse threshold (before ++ b :: after) incoming = .ok found) (x : α) :
    x ∈ found ↔ x ∈ incoming ∨
      ∃ entry ∈ entries, x = entry.2 ∧ entry.1.MatchedWithin before := by
  rw [UnionTree.mem_traverse_iff h.inside hfound]
  refine or_congr_right (exists_mem_iff_of_forall₂ h fun entry fa hfa => ?_)
  -- of what an automaton yields, that counts which is read before the byte
  rw [← Pattern.exists_yields_iff_matchedWithin hfa hbefore]
  refine exists_congr fun read => and_congr_left fun hyields => ?_
  exact prefix_symbols_iff hb (hyields.inAlphabet (Pattern.stepsInside hfa).readsAlphabet)

/-- **A byte outside the alphabet ends the search, and what was matched before it is kept.** However
the automata of patterns are united, a value with such a byte is answered with what came in, without
duplicates, and behind it the payloads of those patterns that are matched within the part before the
byte, provided that the bytes of this part are below the terminator. If none is, just what came in is
left. No scan finds such a value. -/
theorem found_before_byte_outside (h : tree.Unites entries) (hb : ¬ InAlphabet b)
    (before after : Bytes) (threshold : Nat) (incoming : List α) :
    ((∀ c ∈ before, c < terminator) →
      ∃ found, tree.automaton.traverse threshold (before ++ b :: after) incoming = .ok found ∧
        found.Nodup ∧ incoming.eraseDups <+: found ∧
        (∀ x, x ∈ found ↔ x ∈ incoming ∨
          ∃ entry ∈ entries, x = entry.2 ∧ entry.1.MatchedWithin before) ∧
        ((∀ entry ∈ entries, ¬ entry.1.MatchedWithin before) → found = incoming.eraseDups)) ∧
    ∀ pattern scan, LiteralScan.ofPattern pattern = some scan →
      scan.isMatch (before ++ b :: after) = false := by
  refine ⟨fun hbefore => ?_, fun pattern scan _ => ?_⟩
  · obtain ⟨found, hfound⟩ :=
      Automaton.traverse_isOk (stepsInside h.inside) threshold (before ++ b :: after) incoming
    have hanswers := Automaton.answers_of_traverse hfound
    have hmem := h.mem_traverse_iff hb hbefore hfound
    refine ⟨found, hfound, hanswers.nodup, hanswers.incoming_first, hmem, fun hnone => ?_⟩
    -- nothing was matched, so all that is found came in
    refine hanswers.eq_eraseDups fun x hx => ((hmem x).1 hx).resolve_right ?_
    rintro ⟨entry, hentry, -, hmatched⟩
    exact hnone entry hentry hmatched
  · -- a scan looks for such bytes before all else
    refine Bool.eq_false_iff.2 fun hmatch => ?_
    have hall := (LiteralScan.isMatch_iff_finds.1 hmatch).1
    exact hb (hall b (List.mem_append_right _ List.mem_cons_self))

/-- The value `a`, `b` and the byte behind the terminator, in the union of what begins with `a`, of
all values but `ab`, and of `*`: only the first is matched before the byte. -/
theorem found_before_byte_outside_beginning :
    let entries : List (Pattern × Nat) :=
      [(.beginning [97], 1), (.noneOf [[97, 98]], 2), (.shell [42], 3)]
    let tree : UnionTree Nat :=
      .join (.leaf (Literal.beginning [97] 1))
        (.join (.leaf (Exclusion.automaton [[97, 98]] 2))
          (.leaf ((Glob.ofShell [42]).automaton 3)))
    (tree.Unites entries ∧ ¬ InAlphabet 246 ∧ ∀ c ∈ ([97, 98] : Bytes), c < terminator) ∧
    (∃ found, tree.automaton.traverse 500 [97, 98, 246] [7, 7] = .ok found ∧
      found.Nodup ∧ [7, 7].eraseDups <+: found ∧
      ∀ x, x ∈ found ↔ x ∈ [7, 7] ∨
        ∃ entry ∈ entries, x = entry.2 ∧ entry.1.MatchedWithin [97, 98]) ∧
    ∀ scan, LiteralScan.ofPattern [42] = some scan → scan.isMatch [97, 98, 246] = false := by
  intro entries tree
  have hunites : tree.Unites entries := .cons rfl (.cons rfl (.cons rfl .nil))
  have hb : ¬ InAlphabet 246 := by decide
  have hbefore : ∀ c ∈ ([97, 98] : Bytes), c < terminator := by simp [terminator]
  obtain ⟨hwalk, hscan⟩ := found_before_byte_outside hunites hb [97, 98] [] 500 [7, 7]
  obtain ⟨found, hfound, hnodup, hfirst, hmem, -⟩ := hwalk hbefore
  exact ⟨⟨hunites, hb, hbefore⟩, ⟨found, hfound, hnodup, hfirst, hmem⟩, hscan [42]⟩

end UnionTree

/-- **A value with a byte outside the alphabet may be found.** What begins with `a` is found although
such a byte stands behind the second one. -/
theorem byte_outside_may_come_late :
    ¬ ∀ (pattern : Pattern) (payload : Nat) (fa : Automaton Nat) (value : Bytes),
      pattern.automaton payload = .ok fa → (∃ b ∈ value, ¬ InAlphabet b) →
        fa.traverse 500 value [] = .ok [] := by
  intro h
  have hout : ∃ b ∈ ([97, 98, 246] : Bytes), ¬ InAlphabet b := ⟨246, by simp, by decide⟩
  have hfound : (Literal.beginning [97] 1).traverse 500 [97, 98, 246] [] = .ok [1] := by
    decide +kernel
  have hempty := h (.beginning [97]) 1 _ [97, 98, 246] rfl hout
  rw [hfound] at hempty
  exact absurd (Except.ok.inj hempty) (List.cons_ne_nil 1 [])

end ByteMatch
