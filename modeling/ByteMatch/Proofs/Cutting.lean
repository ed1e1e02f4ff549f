import ByteMatch.Proofs.PatternData
import ByteMatch.Proofs.ScanAgreement
import ByteMatch.Proofs.SingleStates
import ByteMatch.Proofs.Spellings
import ByteMatch.Proofs.WildcardGrammar

/-!
# The terminator cuts a value

The end of a value is read as a terminator, and a value may have a terminator in it. A walk does not
tell the one from the other, so what it lists at a terminator in the value is what it would list at
the end of the part before it. It goes on from there, but it only ever lists more: what is listed for
a part that a terminator ends is where the list for the whole value begins
(`Automaton.traverse_begins_with_part`).

It lists nothing more, and the rest of the value might as well not be there, where nothing is yielded
behind a terminator (`Automaton.ReadsOnce`):

* a pattern that is written without a terminator is done with the value when it has read one
  (`Pattern.readsOnce`), be it because its automaton matches there, or because the terminator is the
  byte that departs from what is listed, or the one more byte that a beginning asks for;
* a union is done with the value when its parts are (`UnionTree.readsOnce`).
-/

namespace ByteMatch

variable {α : Type} {fa : Automaton α} {read before after : Bytes} {payload p : α}

/-! ### Walks through a part of a value -/

namespace Automaton

variable {threshold : Nat} {states : List StateId} {bytes more : Bytes} {found found' : List α}

/-- A walk lists what is found without reading before all else. -/
private theorem payloadsAll_prefix_setTrail (h : fa.setTrail threshold states bytes = .ok found) :
    fa.payloadsAll (fa.closureAll states) <+: found := by
  cases bytes with
  | nil =>
    rw [setTrail] at h
    obtain rfl := Except.ok.inj h
    exact List.prefix_rfl
  | cons b rest =>
    rw [setTrail] at h
    split at h
    · obtain rfl := Except.ok.inj h
      exact List.prefix_rfl
    · obtain ⟨-, -, h⟩ := bind_eq_ok_iff.1 h
      obtain ⟨later, -, h⟩ := bind_eq_ok_iff.1 h
      obtain rfl := Except.ok.inj h
      exact List.prefix_append _ _

/-- **What is listed on the way stays listed**: with more bytes to read, a walk lists the same and
then perhaps more. -/
theorem prefix_setTrail (h : fa.setTrail threshold states bytes = .ok found)
    (hmore : fa.setTrail threshold states (bytes ++ more) = .ok found') : found <+: found' := by
  -- both walks make the rounds for `bytes` alike, whatever the set of states they have come to
  induction bytes generalizing states found found' with
  | nil =>
    rw [setTrail] at h
    obtain rfl := Except.ok.inj h
    exact payloadsAll_prefix_setTrail hmore
  | cons b rest ih =>
    rw [List.cons_append, setTrail] at hmore
    rw [setTrail] at h
    cases hnext : StateSet.distinct threshold (fa.stepAll (fa.closureAll states) b) with
    | nil =>
      rw [hnext] at h hmore
      obtain rfl := Except.ok.inj h
      obtain rfl := Except.ok.inj hmore
      exact List.prefix_rfl
    | cons n next =>
      rw [hnext] at h hmore
      obtain ⟨-, -, h⟩ := bind_eq_ok_iff.1 h
      obtain ⟨later, hlater, h⟩ := bind_eq_ok_iff.1 h
      obtain ⟨-, -, hmore⟩ := bind_eq_ok_iff.1 hmore
      obtain ⟨later', hlater', hmore⟩ := bind_eq_ok_iff.1 hmore
      obtain rfl := Except.ok.inj h
      obtain rfl := Except.ok.inj hmore
      exact (List.prefix_append_right_inj _).2 (ih hlater hlater')

/-- Nothing is yielded behind a terminator. -/
def ReadsOnce (fa : Automaton α) : Prop := ∀ read p, fa.Yields read p → terminator ∉ read.dropLast

end Automaton

/-- The end of the part before a terminator is read as the terminator is. -/
private theorem symbols_append_terminator (before after : Bytes) :
    symbols (before ++ [terminator] ++ after) = symbols before ++ symbols after :=
  List.append_assoc _ _ _

/-- What has no terminator but at its end is read of the part before the first one. -/
private theorem prefix_symbols_of_not_mem (hread : terminator ∉ read.dropLast)
    (h : read <+: symbols (before ++ [terminator] ++ after)) : read <+: symbols before := by
  rw [symbols_append_terminator] at h
  rcases List.prefix_or_prefix_of_prefix h (List.prefix_append _ _) with hpart | hpart
  · exact hpart
  · -- it is the part with the terminator, for it cannot go on behind that
    obtain ⟨rest, rfl⟩ := hpart
    cases rest with
    | nil => rw [List.append_nil]
    | cons b rest =>
      refine absurd ?_ hread
      rw [List.dropLast_append_cons]
      exact List.mem_append_left _ (List.mem_append_right _ List.mem_cons_self)

namespace Automaton

variable [DecidableEq α] {threshold : Nat} {incoming found found' : List α}

/-- **What a walk lists for the part before a terminator** is where its list for the whole value
begins. -/
theorem traverse_begins_with_part (h : fa.traverse threshold before incoming = .ok found)
    (hwhole : fa.traverse threshold (before ++ [terminator] ++ after) incoming = .ok found') :
    found <+: found' := by
  rw [traverse_eq_traverseSets] at h hwhole
  obtain ⟨met, hmet, rfl⟩ := map_eq_ok_iff.1 h
  obtain ⟨met', hmet', rfl⟩ := map_eq_ok_iff.1 hwhole
  rw [symbols_append_terminator] at hmet'
  obtain ⟨more, rfl⟩ := prefix_setTrail hmet hmet'
  rw [collect, collect, ← List.append_assoc]
  -- what is listed later is put behind, without what is listed already
  generalize incoming ++ met = listed
  rw [List.eraseDups_append]
  exact List.prefix_append _ _

/-- Where nothing is yielded behind a terminator, a value may be cut at one. -/
theorem ReadsOnce.traverse_eq (inside : fa.StepsInside) (hreads : fa.ReadsOnce) (threshold : Nat)
    (before after : Bytes) (incoming : List α) :
    ∃ found, fa.traverse threshold (before ++ [terminator] ++ after) incoming = .ok found ∧
      fa.traverse threshold before incoming = .ok found := by
  obtain ⟨found, hfound⟩ := traverse_isOk inside threshold before incoming
  obtain ⟨found', hfound'⟩ :=
    traverse_isOk inside threshold (before ++ [terminator] ++ after) incoming
  have hpart := answers_of_traverse hfound
  have hwhole := answers_of_traverse hfound'
  have hsubset : ∀ x ∈ found', x ∈ found := by
    intro x hx
    refine (hpart.mem_iff x).2 (((hwhole.mem_iff x).1 hx).imp_right ?_)
    rintro ⟨read, hread, hyields⟩
    exact ⟨read, prefix_symbols_of_not_mem (hreads read x hyields) hread, hyields⟩
  -- the longer list begins with the shorter one and has no other members, each only once
  have heq : found = found' := (traverse_begins_with_part hfound hfound').eq_of_length_le
    (hwhole.nodup.length_le_of_subset hsubset)
  exact ⟨found, heq ▸ hfound', hfound⟩

end Automaton

/-! ### Patterns without a terminator -/

/-- All bytes that the pattern is written in. -/
def Pattern.data : Pattern → Bytes
  | .exactly bytes => bytes
  | .beginning bytes => bytes
  | .shell pattern => pattern
  | .wildcard pattern => pattern
  | .caseless text => text.flatMap String.utf8EncodeChar
  | .noneOf excluded => excluded.flatten

/-- The bytes that a wildcard pattern asks for are bytes of it. -/
private theorem Glob.mem_of_byte_mem_ofWildcard {pattern : Bytes} {glob : Glob} {b : UInt8}
    (hglob : ofWildcard pattern = .ok glob) (hb : Token.byte b ∈ glob) : b ∈ pattern := by
  obtain ⟨tokens, rfl, rfl⟩ := Wildcard.ofWildcard_eq_ok_iff.1 hglob
  obtain ⟨w, hw, htoken⟩ := List.mem_map.1 hb
  refine List.mem_flatMap.2 ⟨w, hw, ?_⟩
  -- a byte is asked for as it is written, behind a backslash or not
  cases w with
  | plain c hc =>
    rw [Wildcard.Written.token] at htoken
    split at htoken
    · contradiction
    · obtain rfl := Token.byte.inj htoken
      exact List.mem_cons_self
  | escaped c hc =>
    obtain rfl := Token.byte.inj htoken
    exact List.mem_cons_of_mem _ List.mem_cons_self

/-- A glob without a terminator reads none before the one that ends the value. -/
theorem Glob.readsOnce_automaton {glob : Glob} (hglob : Token.byte terminator ∉ glob) :
    (glob.automaton payload).ReadsOnce := by
  intro read x hyields
  -- what is read is a value that matches and the terminator behind it, the last byte
  obtain ⟨-, part, rfl, -, hmatches⟩ := yields_automaton_iff.1 hyields
  rw [List.dropLast_concat]
  exact not_mem_of_matches hglob hmatches

/-- The bytes of a spelling are those of characters. -/
theorem Caseless.readsOnce_automaton {cases : CaseMap} {text : List Char} :
    (automaton cases text payload).ReadsOnce := by
  intro read x hyields
  obtain ⟨-, spelled, rfl, hspelled⟩ := yields_automaton_iff.1 hyields
  obtain ⟨written, -, rfl⟩ := spells_iff_isSpelling.1 hspelled
  rw [symbols, List.dropLast_concat]
  apply Glob.not_mem_of_lt_terminator
  intro b hb
  obtain ⟨c, -, hb⟩ := List.mem_flatMap.1 hb
  exact lt_terminator_of_mem_utf8EncodeChar hb

/-- Where a value departs from those listed, it has been read along with one of them before. -/
theorem Exclusion.readsOnce_automaton {excluded : List Bytes}
    (hexcluded : terminator ∉ excluded.flatten) : (automaton excluded payload).ReadsOnce := by
  intro read x hyields
  obtain ⟨-, -, path, b, rfl, hpath, -⟩ := yields_automaton_iff.1 hyields
  rw [List.dropLast_concat]
  intro hmem
  -- what was read before the value departed begins one of those listed
  rcases hpath with rfl | ⟨e, he, hbegins⟩
  · exact List.not_mem_nil hmem
  · exact hexcluded (List.mem_flatten_of_mem he (hbegins.subset hmem))

/-- **A pattern without a terminator reads one**, the last byte that it reads, or none. -/
theorem Pattern.readsOnce {pattern : Pattern} (hfa : pattern.automaton payload = .ok fa)
    (hdata : terminator ∉ pattern.data) : fa.ReadsOnce := by
  cases pattern with
  | exactly bytes =>
    obtain rfl := Except.ok.inj hfa
    intro read x hyields
    obtain ⟨-, -, rfl⟩ := Literal.yields_whole_iff.1 hyields
    rwa [symbols, List.dropLast_concat]
  | beginning bytes =>
    obtain rfl := Except.ok.inj hfa
    intro read x hyields
    obtain ⟨-, -, c, -, rfl⟩ := Literal.yields_beginning_iff.1 hyields
    rwa [List.dropLast_concat]
  | shell pattern =>
    obtain rfl := Except.ok.inj hfa
    exact Glob.readsOnce_automaton (Glob.byte_not_mem_ofShell hdata)
  | wildcard pattern =>
    obtain ⟨glob, hglob, rfl⟩ := map_eq_ok_iff.1 hfa
    exact Glob.readsOnce_automaton fun hmem => hdata (Glob.mem_of_byte_mem_ofWildcard hglob hmem)
  | caseless text =>
    obtain rfl := Except.ok.inj hfa
    exact Caseless.readsOnce_automaton
  | noneOf excluded =>
    obtain rfl := Except.ok.inj hfa
    exact Exclusion.readsOnce_automaton hdata

/-! ### Unions -/

/-- The empty automaton, or that of a pattern without a terminator. -/
inductive Automaton.Unterminated : Automaton α → Prop
  | empty : Unterminated Automaton.empty
  | pattern (pattern : Pattern) (payload : α) {fa : Automaton α} :
      terminator ∉ pattern.data → pattern.automaton payload = .ok fa → Unterminated fa

theorem Automaton.Unterminated.stepsInside (h : fa.Unterminated) : fa.StepsInside := by
  cases h with
  | empty => exact stepsInside_empty
  | pattern pattern payload _ hfa => exact Pattern.stepsInside hfa

theorem Automaton.Unterminated.readsOnce (h : fa.Unterminated) : fa.ReadsOnce := by
  cases h with
  | empty => exact fun read p hyields => absurd hyields not_yields_empty
  | pattern pattern payload hdata hfa => exact Pattern.readsOnce hfa hdata

namespace UnionTree

variable [DecidableEq α] {tree : UnionTree α}

theorem readsOnce (inside : ∀ fa ∈ tree.leaves, fa.StepsInside)
    (h : ∀ fa ∈ tree.leaves, fa.ReadsOnce) : tree.automaton.ReadsOnce := by
  intro read x hyields
  -- a union yields what one of its parts does
  obtain ⟨fa, hfa, hyields⟩ := (yields_iff inside).1 hyields
  exact h fa hfa read x hyields

/-- **A terminator cuts the value.** However empty automata and those of patterns without a terminator
are united, a value with a terminator in it is answered like the part before the terminator: with the
same list, in the same order, whatever stands behind the terminator and whatever comes in. -/
theorem terminator_cuts_the_value (hleaves : ∀ fa ∈ tree.leaves, fa.Unterminated)
    (threshold : Nat) (before after : Bytes) (incoming : List α) :
    ∃ found,
      tree.automaton.traverse threshold (before ++ [terminator] ++ after) incoming = .ok found ∧
      tree.automaton.traverse threshold before incoming = .ok found := by
  have inside : ∀ fa ∈ tree.leaves, fa.StepsInside := fun fa hfa => (hleaves fa hfa).stepsInside
  have hreads := readsOnce inside fun fa hfa => (hleaves fa hfa).readsOnce
  exact hreads.traverse_eq (stepsInside inside) threshold before after incoming

/-- What begins with `a`, all values but `ab`, `*` and the empty automaton, and the value `a` with a
terminator and `b` behind it. -/
theorem terminator_cuts_the_value_mixed :
    let tree : UnionTree Nat :=
      .join (.join (.leaf Automaton.empty) (.leaf (Literal.beginning [97] 1)))
        (.join (.leaf (Exclusion.automaton [[97, 98]] 2)) (.leaf ((Glob.ofShell [42]).automaton 3)))
    (∀ fa ∈ tree.leaves, fa.Unterminated) ∧
      ∃ found,
        tree.automaton.traverse 500 ([97] ++ [terminator] ++ [98]) [7, 7] = .ok found ∧
        tree.automaton.traverse 500 [97] [7, 7] = .ok found := by
  intro tree
  have hleaves : ∀ fa ∈ tree.leaves, fa.Unterminated := by
    intro fa hfa
    simp only [tree, leaves, List.mem_append, List.mem_singleton] at hfa
    rcases hfa with (rfl | rfl) | rfl | rfl
    · exact .empty
    · exact .pattern (.beginning [97]) 1 (by decide) rfl
    · exact .pattern (.noneOf [[97, 98]]) 2 (by decide) rfl
    · exact .pattern (.shell [42]) 3 (by decide) rfl
  exact ⟨hleaves, terminator_cuts_the_value hleaves 500 [97] [98] [7, 7]⟩

end UnionTree

end ByteMatch
