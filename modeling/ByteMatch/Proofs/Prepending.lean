import ByteMatch.Pattern.Glob
import ByteMatch.Proofs.Paths
import ByteMatch.Proofs.Rows

/-!
# States put in front

Fragments are built back to front, by putting one state after the other in front of a graph. The
states that are there already keep their numbers, and a walk that has come to one of them stays among
them (`Graph.Extends.path_iff`); so what the whole yields is said by the new start alone:

* `Graph.yields_prependSteps_iff`: a byte leads to what its target yields;
* `Graph.yields_prependByte_iff`, `Graph.yields_prependEnd_iff`: one byte is asked for in front;
* `Graph.yields_prependStar_iff`: any bytes but the terminator are read in front.

Steps stay inside if those of the new start do (`Graph.stepsInside_prepend`), which is what the other
lemmas ask of the graph that a state is put in front of.
-/

namespace ByteMatch

variable {α : Type}

/-! ### Steps given byte by byte -/

namespace Table

variable {default : Option StateId} {entries : List (UInt8 × Option StateId)}

theorem lastTarget_singleton (default : Option StateId) (entry : UInt8 × Option StateId) (i : Nat) :
    lastTarget default [entry] i = if entry.1.toNat = i then entry.2 else default := rfl

/-- The target of a byte is the default or that of an entry for the byte. -/
theorem lastTarget_eq_or (default : Option StateId) (entries : List (UInt8 × Option StateId))
    (i : Nat) :
    lastTarget default entries i = default ∨
      ∃ entry ∈ entries, entry.1.toNat = i ∧ lastTarget default entries i = entry.2 := by
  induction entries generalizing default with
  | nil => exact .inl rfl
  | cons entry entries ih =>
    have hcons : lastTarget default (entry :: entries) i =
        lastTarget (if entry.1.toNat = i then entry.2 else default) entries i := rfl
    rw [hcons]
    -- the first entry counts only as the default of the others
    rcases ih (if entry.1.toNat = i then entry.2 else default) with h | ⟨other, hother, hi, h⟩
    · rw [h]
      split
      · next hi => exact .inr ⟨entry, List.mem_cons_self, hi, rfl⟩
      · exact .inl rfl
    · exact .inr ⟨other, List.mem_cons_of_mem _ hother, hi, h⟩

/-- What holds of all targets given holds of the target of a byte. -/
theorem of_lastTarget {P : StateId → Prop} (hdefault : ∀ n, default = some n → P n)
    (hentries : ∀ entry ∈ entries, ∀ n, entry.2 = some n → P n) {i : Nat} {n : StateId}
    (h : lastTarget default entries i = some n) : P n := by
  rcases lastTarget_eq_or default entries i with heq | ⟨entry, hentry, -, heq⟩
  · exact hdefault n (heq ▸ h)
  · exact hentries entry hentry n (heq ▸ h)

/-- Targets change only at bytes that have an entry and behind them. -/
theorem lastTarget_sub_one (default : Option StateId) {c : Nat} (hpos : 0 < c)
    (h : c ∉ entries.flatMap fun entry => [entry.1.toNat, entry.1.toNat + 1]) :
    lastTarget default entries c = lastTarget default entries (c - 1) := by
  induction entries generalizing default with
  | nil => rfl
  | cons entry entries ih =>
    simp only [List.flatMap_cons, List.mem_append, List.mem_cons, List.not_mem_nil, or_false,
      not_or] at h
    obtain ⟨⟨hat, hbehind⟩, hrest⟩ := h
    -- the entry is neither for `c` nor for the place before
    have hne : entry.1.toNat ≠ c := Ne.symm hat
    have hne' : entry.1.toNat ≠ c - 1 := by omega
    have ih := ih default hrest
    unfold lastTarget at ih ⊢
    rw [List.foldl_cons, List.foldl_cons, if_neg hne, if_neg hne', ih]

/-- A byte of the alphabet goes where the entries say. -/
theorem step_ofEntries (default : Option StateId) (entries : List (UInt8 × Option StateId))
    (byte : UInt8) :
    (ofEntries default entries).step byte =
      if InAlphabet byte then lastTarget default entries byte.toNat else none := by
  have hcuts : ∀ c, 0 < c → c < alphabetSize →
      c ∉ entries.flatMap (fun entry => [entry.1.toNat, entry.1.toNat + 1]) →
      lastTarget default entries c = lastTarget default entries (c - 1) :=
    fun c hpos _ hc => lastTarget_sub_one default hpos hc
  rw [step, target, ofEntries, Runs.get?_tabulate hcuts]
  by_cases hbyte : InAlphabet byte
  · rw [if_pos hbyte, if_pos hbyte, Option.getD_some]
  · rw [if_neg hbyte, if_neg hbyte, Option.getD_none]

/-- Entries for bytes of the alphabet, and no others, make a table. -/
theorem ofEntries?_eq_ok_iff {table : Table} :
    ofEntries? default entries = .ok table ↔
      (∀ entry ∈ entries, InAlphabet entry.1) ∧ table = ofEntries default entries := by
  unfold ofEntries?
  split
  · next entry hfind =>
    have hout : ¬ InAlphabet entry.1 := by simpa using List.find?_some hfind
    constructor
    · intro h
      contradiction
    · rintro ⟨hin, -⟩
      exact absurd (hin entry (List.mem_of_find?_eq_some hfind)) hout
  · next hfind =>
    have hin : ∀ entry ∈ entries, InAlphabet entry.1 := by
      intro entry hentry
      simpa using List.find?_eq_none.1 hfind entry hentry
    rw [Except.ok.injEq, eq_comm]
    exact (and_iff_right hin).symm

theorem step_addEpsilon (table : Table) (target : StateId) (byte : UInt8) :
    (table.addEpsilon target).step byte = table.step byte := by
  unfold addEpsilon
  split <;> rfl

end Table

namespace Automaton

/-- Some path from `s` reads `read` and ends in a state with the payload `p`. -/
def YieldsFrom (fa : Automaton α) (s : StateId) (read : Bytes) (p : α) : Prop :=
  ∃ t, fa.Path s read t ∧ p ∈ fa.payloads t

variable {fa : Automaton α} {s : StateId} {read : Bytes} {p : α}

/-- What is yielded from a state is its own payload or yielded behind its first edge. -/
theorem yieldsFrom_iff :
    fa.YieldsFrom s read p ↔ read = [] ∧ p ∈ fa.payloads s ∨
      (∃ e ∈ epsilonTargets fa.nodes s, fa.YieldsFrom e read p) ∨
      ∃ b rest, read = b :: rest ∧ ∃ n, fa.step s b = some n ∧ fa.YieldsFrom n rest p := by
  refine ⟨?_, ?_⟩
  · rintro ⟨t, hpath, hp⟩
    cases hpath with
    | refl => exact .inl ⟨rfl, hp⟩
    | epsilon he hrest => exact .inr (.inl ⟨_, he, t, hrest, hp⟩)
    | byte hb hrest => exact .inr (.inr ⟨_, _, rfl, _, hb, t, hrest, hp⟩)
  · rintro (⟨rfl, hp⟩ | ⟨e, he, t, hpath, hp⟩ | ⟨b, rest, rfl, n, hb, t, hpath, hp⟩)
    · exact ⟨s, .refl s, hp⟩
    · exact ⟨t, .epsilon he hpath, hp⟩
    · exact ⟨t, .byte hb hpath, hp⟩

end Automaton

namespace Graph

/-! ### States that are there already -/

variable {g g' : Graph α} {s t : StateId} {read : Bytes} {p : α}

/-- `g'` has the states of `g` under the same numbers. -/
def Extends (g g' : Graph α) : Prop := ∀ i < g.nodes.size, g'.nodes[i]? = g.nodes[i]?

theorem Extends.step_eq (h : g.Extends g') (hs : s < g.nodes.size) (b : UInt8) :
    g'.seal.step s b = g.seal.step s b := by
  have hnode : g'.seal.nodes[s]? = g.seal.nodes[s]? := h s hs
  rw [Automaton.step, Automaton.step, hnode]

theorem Extends.epsilonTargets_eq (h : g.Extends g') (hs : s < g.nodes.size) :
    epsilonTargets g'.nodes s = epsilonTargets g.nodes s := by
  rw [epsilonTargets, epsilonTargets, h s hs]

theorem Extends.payloads_eq (h : g.Extends g') (hs : s < g.nodes.size) :
    g'.seal.payloads s = g.seal.payloads s := by
  have hnode : g'.seal.nodes[s]? = g.seal.nodes[s]? := h s hs
  rw [Automaton.payloads, Automaton.payloads, hnode]

/-- **Walks do not come back to the front.** -/
theorem Extends.path_iff (h : g.Extends g') (inside : g.seal.StepsInside)
    (hs : s < g.nodes.size) : g'.seal.Path s read t ↔ g.seal.Path s read t := by
  -- either way each edge leads to a state that was there already, and there both have the same edges
  refine ⟨fun hpath => ?_, fun hpath => ?_⟩
  · induction hpath with
    | refl => exact .refl _
    | epsilon he _ ih =>
      have he : _ ∈ epsilonTargets g'.nodes _ := he
      rw [h.epsilonTargets_eq hs] at he
      exact .epsilon he (ih (g.epsilonTargets_lt he))
    | byte hb _ ih =>
      rw [h.step_eq hs] at hb
      exact .byte hb (ih (inside _ _ _ hb).2)
  · induction hpath with
    | refl => exact .refl _
    | epsilon he _ ih =>
      have he : _ ∈ epsilonTargets g.nodes _ := he
      refine .epsilon ?_ (ih (g.epsilonTargets_lt he))
      show _ ∈ epsilonTargets g'.nodes _
      rwa [h.epsilonTargets_eq hs]
    | byte hb _ ih =>
      refine .byte ?_ (ih (inside _ _ _ hb).2)
      rwa [h.step_eq hs]

theorem Extends.yieldsFrom_iff (h : g.Extends g') (inside : g.seal.StepsInside)
    (hs : s < g.nodes.size) : g'.seal.YieldsFrom s read p ↔ g.seal.YieldsFrom s read p := by
  refine exists_congr fun t => ?_
  rw [h.path_iff inside hs]
  -- the path ends in a state that was there, with its payloads
  refine and_congr_right fun hpath => ?_
  rw [h.payloads_eq (hpath.lt_size inside hs)]

/-! ### The new start -/

section Prepend

variable {table : Table} {h : ∀ e ∈ table.epsilons, e ≤ g.nodes.size}

theorem getElem?_prepend (i : StateId) :
    (g.prepend table h).nodes[i]? =
      if i = g.nodes.size then some ⟨table, []⟩ else g.nodes[i]? := Array.getElem?_push

theorem extends_prepend : g.Extends (g.prepend table h) := by
  intro i hi
  rw [getElem?_prepend, if_neg (Nat.ne_of_lt hi)]

theorem size_prepend : (g.prepend table h).nodes.size = g.nodes.size + 1 := Array.size_push _

theorem step_start_prepend (b : UInt8) :
    (g.prepend table h).seal.step g.nodes.size b = table.step b := by
  have hnode : (g.prepend table h).seal.nodes[g.nodes.size]? = some ⟨table, []⟩ := by
    show (g.prepend table h).nodes[g.nodes.size]? = some ⟨table, []⟩
    rw [getElem?_prepend, if_pos rfl]
  rw [Automaton.step, hnode]

theorem stepsInside_prepend (inside : g.seal.StepsInside)
    (htable : ∀ b n, table.step b = some n → InAlphabet b ∧ n ≤ g.nodes.size) :
    (g.prepend table h).seal.StepsInside := by
  intro s b n hstep
  show InAlphabet b ∧ n < (g.prepend table h).nodes.size
  rw [size_prepend]
  rcases Nat.lt_trichotomy s g.nodes.size with hs | rfl | hs
  · -- a state that was there
    rw [extends_prepend.step_eq hs] at hstep
    obtain ⟨hb, hn⟩ := inside _ _ _ hstep
    exact ⟨hb, Nat.lt_succ_of_lt hn⟩
  · -- the new start
    rw [step_start_prepend] at hstep
    obtain ⟨hb, hn⟩ := htable b n hstep
    exact ⟨hb, Nat.lt_succ_of_le hn⟩
  · -- no state
    have hnone : (g.prepend table h).nodes[s]? = none := by
      refine Array.getElem?_eq_none ?_
      rw [size_prepend]
      exact hs
    rw [Automaton.step, show (g.prepend table h).seal.nodes[s]? = none from hnone] at hstep
    contradiction

/-- **What is yielded from a new start** is yielded behind one of its edges. -/
theorem yields_prepend_iff :
    (g.prepend table h).seal.Yields read p ↔
      (∃ e ∈ table.epsilons, (g.prepend table h).seal.YieldsFrom e read p) ∨
      ∃ b rest, read = b :: rest ∧ ∃ n, table.step b = some n ∧
        (g.prepend table h).seal.YieldsFrom n rest p := by
  have hnode : (g.prepend table h).nodes[g.nodes.size]? = some ⟨table, []⟩ := by
    rw [getElem?_prepend, if_pos rfl]
  have hpayloads : (g.prepend table h).seal.payloads g.nodes.size = [] := by
    rw [Automaton.payloads,
      show (g.prepend table h).seal.nodes[g.nodes.size]? = some ⟨table, []⟩ from hnode]
  have hepsilons : epsilonTargets (g.prepend table h).seal.nodes g.nodes.size = table.epsilons :=
    epsilonTargets_eq hnode
  show (g.prepend table h).seal.YieldsFrom g.nodes.size read p ↔ _
  -- the new start has no payload of its own
  rw [Automaton.yieldsFrom_iff, hpayloads, hepsilons]
  simp only [step_start_prepend, List.not_mem_nil, and_false, false_or]

end Prepend

/-! ### Steps put in front -/

section Steps

variable {default : Option StateId} {entries : List (UInt8 × Option StateId)}

theorem stepsInside_prependSteps (inside : g.seal.StepsInside)
    (hdefault : ∀ n, default = some n → n ≤ g.nodes.size)
    (hentries : ∀ entry ∈ entries, ∀ n, entry.2 = some n → n ≤ g.nodes.size) :
    (g.prependSteps default entries).seal.StepsInside := by
  refine stepsInside_prepend inside fun b n hstep => ?_
  rw [Table.step_ofEntries] at hstep
  split at hstep
  · next hb => exact ⟨hb, Table.of_lastTarget hdefault hentries hstep⟩
  · contradiction

/-- A byte leads to what its target yields, if that is among the states that were there. -/
theorem yields_prependSteps_iff (inside : g.seal.StepsInside)
    (hdefault : ∀ n, default = some n → n < g.nodes.size)
    (hentries : ∀ entry ∈ entries, ∀ n, entry.2 = some n → n < g.nodes.size) :
    (g.prependSteps default entries).seal.Yields read p ↔
      ∃ b rest, read = b :: rest ∧ InAlphabet b ∧
        ∃ n, Table.lastTarget default entries b.toNat = some n ∧ g.seal.YieldsFrom n rest p := by
  have hepsilons : (Table.ofEntries default entries).epsilons = [] := rfl
  have hle : ∀ e ∈ (Table.ofEntries default entries).epsilons, e ≤ g.nodes.size :=
    fun e he => absurd he List.not_mem_nil
  have hprepend : g.prependSteps default entries = g.prepend (Table.ofEntries default entries) hle :=
    rfl
  rw [hprepend, yields_prepend_iff, hepsilons]
  simp only [List.not_mem_nil, false_and, exists_false, false_or, Table.step_ofEntries]
  refine exists_congr fun b => exists_congr fun rest => and_congr_right fun _ => ?_
  by_cases hb : InAlphabet b
  · simp only [hb, true_and]
    refine exists_congr fun n => and_congr_right fun hn => ?_
    exact extends_prepend.yieldsFrom_iff inside (Table.of_lastTarget hdefault hentries hn)
  · simp [hb]

end Steps

/-- What leads to the start leads to a state that is there. -/
theorem lt_size_of_start (g : Graph α) : ∀ n, some g.start = some n → n < g.nodes.size := by
  intro n hn
  rw [← Option.some.inj hn]
  exact g.start_lt

/-- A byte that is asked for leads to the old start. -/
private theorem target_prependByte_lt (g : Graph α) (byte : UInt8) :
    ∀ entry ∈ (if InAlphabet byte then [(byte, some g.start)] else []),
      ∀ n, entry.2 = some n → n < g.nodes.size := by
  intro entry hentry n hn
  split at hentry
  · obtain rfl := List.mem_singleton.1 hentry
    exact g.lt_size_of_start n hn
  · exact absurd hentry List.not_mem_nil

theorem stepsInside_prependByte (inside : g.seal.StepsInside) (byte : UInt8) :
    (g.prependByte byte).seal.StepsInside :=
  stepsInside_prependSteps inside (by simp) fun entry hentry n hn =>
    Nat.le_of_lt (g.target_prependByte_lt byte entry hentry n hn)

/-- A byte of the alphabet is asked for in front; any other makes a dead end. -/
theorem yields_prependByte_iff (inside : g.seal.StepsInside) {byte : UInt8} :
    (g.prependByte byte).seal.Yields read p ↔
      InAlphabet byte ∧ ∃ rest, read = byte :: rest ∧ g.seal.Yields rest p := by
  rw [prependByte, yields_prependSteps_iff inside (by simp) (g.target_prependByte_lt byte)]
  by_cases hbyte : InAlphabet byte
  · rw [if_pos hbyte, and_iff_right hbyte]
    refine ⟨?_, ?_⟩
    · rintro ⟨b, rest, rfl, -, n, hn, hyields⟩
      -- there is one entry, so the byte read is the one asked for
      rw [Table.lastTarget_singleton] at hn
      split at hn
      · next heq =>
        obtain rfl : byte = b := UInt8.toNat_inj.1 heq
        obtain rfl := Option.some.inj hn
        exact ⟨rest, rfl, hyields⟩
      · contradiction
    · rintro ⟨rest, rfl, hyields⟩
      exact ⟨byte, rest, rfl, hbyte, g.start, if_pos rfl, hyields⟩
  · -- no entry and no default: the new start is a dead end
    rw [if_neg hbyte]
    simp [hbyte, Table.lastTarget]

theorem prependEnd_eq (g : Graph α) : g.prependEnd = g.prependByte terminator := by
  have hbyte : InAlphabet terminator := by decide
  rw [prependByte, if_pos hbyte, prependEnd]

theorem stepsInside_prependEnd (inside : g.seal.StepsInside) :
    g.prependEnd.seal.StepsInside := by
  rw [prependEnd_eq]
  exact stepsInside_prependByte inside terminator

theorem yields_prependEnd_iff (inside : g.seal.StepsInside) :
    g.prependEnd.seal.Yields read p ↔ ∃ rest, read = terminator :: rest ∧ g.seal.Yields rest p := by
  have hbyte : InAlphabet terminator := by decide
  rw [prependEnd_eq, yields_prependByte_iff inside, and_iff_right hbyte]

/-! ### Stars put in front -/

/-- What the new start does: an epsilon edge to the old start, and every byte but the terminator leads
back. -/
def starTable (g : Graph α) : Table :=
  (Table.ofEntries (some g.nodes.size) [(terminator, none)]).addEpsilon g.start

private theorem epsilons_starTable (g : Graph α) : g.starTable.epsilons = [g.start] := rfl

private theorem prependStar_eq (g : Graph α) (h : ∀ e ∈ g.starTable.epsilons, e ≤ g.nodes.size) :
    g.prependStar = g.prepend g.starTable h := rfl

private theorem step_starTable (g : Graph α) (b : UInt8) :
    g.starTable.step b =
      if InAlphabet b ∧ b ≠ terminator then some g.nodes.size else none := by
  rw [starTable, Table.step_addEpsilon, Table.step_ofEntries, Table.lastTarget_singleton]
  by_cases hend : b = terminator
  · subst hend
    simp
  · have hne : terminator.toNat ≠ b.toNat := fun heq => hend (UInt8.toNat_inj.1 heq).symm
    simp [hend, hne]

theorem stepsInside_prependStar (inside : g.seal.StepsInside) :
    g.prependStar.seal.StepsInside := by
  refine stepsInside_prepend inside fun b n hstep => ?_
  have hstep : g.starTable.step b = some n := hstep
  rw [step_starTable] at hstep
  split at hstep
  · next hb =>
    obtain rfl := Option.some.inj hstep
    exact ⟨hb.1, Nat.le_refl _⟩
  · contradiction

/-- Any bytes but the terminator are read in front. -/
theorem yields_prependStar_iff (inside : g.seal.StepsInside) :
    g.prependStar.seal.Yields read p ↔
      ∃ skipped rest, read = skipped ++ rest ∧ (∀ b ∈ skipped, InAlphabet b ∧ b ≠ terminator) ∧
        g.seal.Yields rest p := by
  -- one edge out of the new start: to the old start, or a byte that leads back
  have hfirst : ∀ read, g.prependStar.seal.Yields read p ↔ g.seal.Yields read p ∨
      ∃ b rest, read = b :: rest ∧ (InAlphabet b ∧ b ≠ terminator) ∧
        g.prependStar.seal.Yields rest p := by
    intro read
    have hle : ∀ e ∈ g.starTable.epsilons, e ≤ g.nodes.size := by
      intro e he
      rw [List.mem_singleton.1 he]
      exact Nat.le_of_lt g.start_lt
    rw [prependStar_eq g hle, yields_prepend_iff, epsilons_starTable]
    simp only [step_starTable, List.mem_singleton, exists_eq_left]
    refine or_congr (extends_prepend.yieldsFrom_iff inside g.start_lt) ?_
    refine exists_congr fun b => exists_congr fun rest => and_congr_right fun _ => ?_
    refine ⟨?_, ?_⟩
    · rintro ⟨n, hn, hyields⟩
      split at hn
      · next hb =>
        obtain rfl := Option.some.inj hn
        exact ⟨hb, hyields⟩
      · contradiction
    · rintro ⟨hb, hyields⟩
      exact ⟨g.nodes.size, if_pos hb, hyields⟩
  refine ⟨fun h => ?_, ?_⟩
  · induction read with
    | nil =>
      rcases (hfirst []).1 h with h | ⟨b, rest, hread, -⟩
      · exact ⟨[], [], rfl, by simp, h⟩
      · contradiction
    | cons c read ih =>
      rcases (hfirst (c :: read)).1 h with h | ⟨b, rest, hread, hb, h⟩
      · exact ⟨[], c :: read, rfl, by simp, h⟩
      · -- the byte leads back, so it is one more that is skipped
        obtain ⟨rfl, rfl⟩ := List.cons.inj hread
        obtain ⟨skipped, rest, rfl, hskipped, hyields⟩ := ih h
        refine ⟨c :: skipped, rest, rfl, fun b' hb' => ?_, hyields⟩
        rcases List.mem_cons.1 hb' with rfl | hb'
        · exact hb
        · exact hskipped b' hb'
  · rintro ⟨skipped, rest, rfl, hskipped, hyields⟩
    induction skipped with
    | nil => exact (hfirst rest).2 (.inl hyields)
    | cons b skipped ih =>
      refine (hfirst _).2 (.inr ⟨b, skipped ++ rest, rfl, hskipped b List.mem_cons_self, ?_⟩)
      exact ih fun b' hb' => hskipped b' (List.mem_cons_of_mem _ hb')

/-! ### The state behind everything -/

theorem stepsInside_single (payloads : List α) : (single payloads).seal.StepsInside := by
  refine Automaton.stepsInside_of_runs fun node hnode run hrun => ?_
  obtain rfl : node = ⟨Table.empty, payloads⟩ := by
    simpa [Graph.seal, single] using hnode
  obtain rfl : run = (alphabetSize, none) := by simpa [Table.empty, Table.uniform] using hrun
  exact ⟨Nat.le_refl _, by simp⟩

/-- A single state yields its payloads and reads nothing more. -/
theorem yields_single_iff {payloads : List α} :
    (single payloads).seal.Yields read p ↔ read = [] ∧ p ∈ payloads := by
  have hnode : (single payloads).seal.nodes[0]? = some ⟨Table.empty, payloads⟩ := rfl
  have hepsilons : epsilonTargets (single payloads).seal.nodes 0 = [] := rfl
  have hpayloads : (single payloads).seal.payloads 0 = payloads := rfl
  show (single payloads).seal.YieldsFrom 0 read p ↔ _
  -- the empty table has no edges
  rw [Automaton.yieldsFrom_iff, hpayloads, hepsilons]
  refine ⟨?_, ?_⟩
  · rintro (h | ⟨e, he, -⟩ | ⟨b, rest, -, n, hstep, -⟩)
    · exact h
    · exact absurd he List.not_mem_nil
    · rw [Automaton.step, hnode] at hstep
      exact absurd hstep (by simp [Table.step_empty])
  · exact .inl

theorem yields_accept_iff {payload : α} :
    (accept payload).seal.Yields read p ↔ read = [] ∧ p = payload := by
  rw [accept, yields_single_iff, List.mem_singleton]

end Graph

end ByteMatch
