/-
States.

A state is an item set with the transitions that lead out of it.  The order of the
transitions is part of the state: they are referred to by position, and the first
conflict is the first in that order.
-/
import ShiftReduce.Transition

namespace ShiftReduce

structure State where
  id : StateId
  itemSet : ItemSet
  transitions : List Transition
deriving DecidableEq

namespace State

/-- A state without transitions. -/
def make (id : StateId) (itemSet : ItemSet) : State := ⟨id, itemSet, []⟩

def transition (s : State) (index : Nat) : Except Failure Transition :=
  match s.transitions[index]? with
  | some t => .ok t
  | none => .error (.invalidTransition s.id.index index)

/-- The state has this transition, perhaps with another lookahead. -/
def hasEdge (s : State) (t : Transition) : Bool := s.transitions.any fun u => u.sameEdge t

/-- Adds a transition at the end unless the state has it. -/
def add (s : State) (t : Transition) : State :=
  if s.hasEdge t then s else { s with transitions := s.transitions ++ [t] }

/-- Adding a transition leaves everything else about the state alone. -/
theorem itemSet_add (s : State) (t : Transition) : (s.add t).itemSet = s.itemSet := by
  unfold add
  split <;> rfl

theorem id_add (s : State) (t : Transition) : (s.add t).id = s.id := by
  unfold add
  split <;> rfl

def addAll (s : State) (ts : List Transition) : State := ts.foldl add s

theorem itemSet_addAll (s : State) (ts : List Transition) : (s.addAll ts).itemSet = s.itemSet := by
  induction ts generalizing s with
  | nil => rfl
  | cons t rest ih => exact (ih (s.add t)).trans (itemSet_add s t)

theorem id_addAll (s : State) (ts : List Transition) : (s.addAll ts).id = s.id := by
  induction ts generalizing s with
  | nil => rfl
  | cons t rest ih => exact (ih (s.add t)).trans (id_add s t)

/-- Takes a transition out, and says which one it was. -/
def remove (s : State) (index : Nat) : Except Failure (Transition × State) := do
  let t ← s.transition index
  return (t, { s with transitions := s.transitions.eraseIdx index })

/-- Takes the transitions at some positions out.  Positions are given in ascending order, and the
removals go from the last one to the first, so that none of them moves a transition that is still
to be removed. -/
def removeAll (s : State) (positions : List Nat) : Except Failure State :=
  positions.reverse.foldlM (fun s i => do return (← s.remove i).2) s

/-- Takes out the first transition that is this one apart from its lookahead. -/
def removeEdge (s : State) (t : Transition) : State :=
  { s with transitions := s.transitions.eraseP fun u => u.sameEdge t }

/-- Gives a transition another lookahead.  A goto or an accept stays as it is. -/
def setLookahead (s : State) (index : Nat) (l : Lookahead) : Except Failure State := do
  let t ← s.transition index
  return { s with transitions := s.transitions.set index (t.withLookahead l) }

/-- The first two transitions in conflict, by position. -/
def firstConflict : List Transition → Option (Nat × Nat)
  | [] => none
  | t :: rest =>
      match rest.findIdx? t.conflictsWith with
      | some j => some (0, j + 1)
      | none => (firstConflict rest).map fun pair => (pair.1 + 1, pair.2 + 1)

/-- There is no first conflict exactly when no two transitions are in conflict. -/
theorem firstConflict_eq_none_iff {ts : List Transition} :
    firstConflict ts = none ↔ ts.Pairwise fun t u => t.conflictsWith u = false := by
  induction ts with
  | nil => exact ⟨fun _ => List.Pairwise.nil, fun _ => rfl⟩
  | cons t rest ih =>
    rw [firstConflict, List.pairwise_cons]
    split
    · rename_i j hj
      obtain ⟨hlt, hconflict, _⟩ := List.findIdx?_eq_some_iff_getElem.mp hj
      refine ⟨fun h => absurd h (Option.some_ne_none _), fun h => ?_⟩
      rw [h.1 _ (List.getElem_mem hlt)] at hconflict
      cases hconflict
    · rename_i hnone
      rw [Option.map_eq_none_iff, ih]
      refine ⟨fun h => ⟨fun u hu => ?_, h⟩, fun h => h.2⟩
      exact List.findIdx?_eq_none_iff.mp hnone u hu

def conflict? (s : State) : Option (Nat × Nat) := firstConflict s.transitions

end State
end ShiftReduce
