import ByteMatch.Automaton

/-!
# Sealing in place

`Graph.seal` lists the closures beside the states. They can also be noted with the states themselves,
in whatever room the states have for them, and without a look ahead at what will go wrong: the edges
are followed, and an edge that leads outside is found out when it is taken. `sealStates` does that.

One search is made for each state, and all of them with the same set and the same stack. Of the work
left in a search, the waiting states and those that are not in the set, each round takes one state off
(`Search.enter_work`), so a search ends by itself.
-/

namespace ByteMatch

variable {α : Type} {n : Nat}

/-- A state with the epsilon closure that is noted with it. -/
structure NotedNode (α : Type) extends Node α where
  closure : List StateId
deriving DecidableEq, Repr

/-- A search for the closure of one of `n` states. -/
structure Search (n : Nat) where
  /-- What has been found. -/
  seen : SparseSet n
  /-- What has been found and not been gone on from. -/
  pending : List StateId
  /-- What has been found, in the order in which it was. -/
  closure : List StateId

namespace Search

/-- The search from a state, with the set and the stack of the search before. -/
def restart (search : Search n) (state : StateId) : Search n where
  seen := (search.seen.clear.insert state).2
  pending := state :: search.pending
  closure := [state]

/-- Takes the epsilon edges of one state. -/
def enter : List StateId → Search n → Except Fault (Search n)
  | [], search => .ok search
  | e :: targets, search =>
    if e < n then
      match search.seen.insert e with
      | (true, seen) => enter targets ⟨seen, e :: search.pending, search.closure ++ [e]⟩
      | (false, seen) => enter targets { search with seen := seen }
    else .error .epsilonOutside

/-- The states that wait, and those that are not in the set. -/
def work (search : Search n) : Nat := search.pending.length + (n - search.seen.size)

/-- A state that is found is taken out of the one part of the work and put into the other. -/
theorem enter_work {targets : List StateId} {search next : Search n}
    (h : enter targets search = .ok next) : next.work = search.work := by
  induction targets generalizing search with
  | nil =>
    obtain rfl := Except.ok.inj h
    rfl
  | cons e targets ih =>
    rw [enter] at h
    split at h
    · split at h
      · next seen hinsert =>
        have hsize := SparseSet.size_of_insert_new hinsert
        have hroom := seen.size_le
        have hwork := ih h
        simp only [work, List.length_cons, hsize] at hwork hroom ⊢
        omega
      · next seen hinsert =>
        have hwork := ih h
        simp only [work, SparseSet.size_of_insert_old hinsert] at hwork ⊢
        exact hwork
    · contradiction

/-- Goes on until nothing waits, from the state that was found last. -/
def run (states : Array (NotedNode α)) (search : Search n) : Except Fault (Search n) :=
  match _hpending : search.pending with
  | [] => .ok search
  | state :: pending =>
    match states[state]? with
    | none => .error .epsilonOutside
    | some node =>
      match _hnext : enter node.table.epsilons { search with pending := pending } with
      | .error fault => .error fault
      | .ok next => run states next
termination_by search.work
decreasing_by
  rw [enter_work _hnext]
  simp only [work, _hpending, List.length_cons]
  omega

end Search

/-- Notes the closure of a state with it. -/
def noteClosure (progress : Array (NotedNode α) × Search n) (state : StateId) :
    Except Fault (Array (NotedNode α) × Search n) := do
  let search ← (progress.2.restart state).run progress.1
  .ok (progress.1.modify state ({ · with closure := search.closure }), search)

/-- Notes the closures of all states, one after the other. -/
def noteClosures (states : Array (NotedNode α)) : Except Fault (Array (NotedNode α)) := do
  let search : Search states.size := ⟨SparseSet.empty states.size, [], []⟩
  let progress ← (List.range states.size).foldlM noteClosure (states, search)
  .ok progress.1

/-- States that have been sealed. -/
structure SealedStates (α : Type) where
  states : Array (NotedNode α)
  start : StateId
  /-- Whether no state has an epsilon edge. -/
  deterministic : Bool
deriving DecidableEq, Repr

/-- Seals states. -/
def sealStates (states : Array (NotedNode α)) (start : Option StateId) :
    Except Fault (SealedStates α) :=
  match start with
  | none => .error (.startOutside none)
  | some start =>
    if start < states.size then do
      let states ← noteClosures states
      .ok ⟨states, start, states.all (·.table.epsilons.isEmpty)⟩
    else .error (.startOutside (some start))

end ByteMatch
