/-
Refinement: settling the conflicts of an automaton.

The automaton of a grammar lets every complete item reduce on every input symbol,
so it conflicts wherever a state can do anything else.  Refinement takes such
conflicts away in five passes.

  prune      drops a reduction on a symbol that cannot follow;
  lookAhead  gives the shifts and reductions that are in each other's way a
             lookahead of one further symbol;
  settle     where two transitions of different priority are still in conflict,
             makes the lower one give up the input that the higher one claims, and
             drops it if that is not enough;
  bury       drops what no input can reach any more;
  compact    takes a lookahead away where all transitions on a symbol agree.

Passes work on one state at a time and never look at another.  A pass gathers the positions of the
transitions that it is about before it changes anything, and then reads and writes through them:
a position that is past the end by then is refused.  That none ever is depends on the order of the
removals, which go from the last position to the first.

What the passes ask about items is answered by one survey, made before the first pass: no pass
changes an item.
-/
import ShiftReduce.Checked.Survey
import ShiftReduce.Event

namespace ShiftReduce

/-- Every pair of an earlier and a later member, ordered by the earlier one. -/
def orderedPairs {α : Type} : List α → List (α × α)
  | [] => []
  | x :: rest => rest.map (fun y => (x, y)) ++ orderedPairs rest

/-- The positions of the transitions that pass a test. -/
def positionsWhere (p : Transition → Bool) (ts : List Transition) : List Nat :=
  (ts.zipIdx.filter fun entry => p entry.1).map Prod.snd

/-- The positions of the transitions of one kind. -/
def positionsOf (kind : MoveKind) (ts : List Transition) : List Nat :=
  positionsWhere (fun t => t.kind == kind) ts

/-- Adds a position to a list of them in ascending order, unless it is there. -/
def addPosition (i : Nat) : List Nat → List Nat
  | [] => [i]
  | j :: rest =>
      if i < j then i :: j :: rest else if i = j then j :: rest else j :: addPosition i rest

namespace Refinement

/-! ## Pruning -/

/-- Drops the reduction at a position if its symbol cannot come where its rule is complete. -/
def pruneAt (v : Survey) (s : State) (i : Nat) : Except Failure State := do
  let t ← s.transition i
  if (← v.firstSet t.origin).contains t.symbol then return s else return (← s.remove i).2

def prune (v : Survey) (s : State) : Except Failure State :=
  (positionsOf .reduce s.transitions).reverse.foldlM (pruneAt v) s

/-! ## Looking ahead -/

/-- Gives the transition at a position the lookahead that its origin calls for. -/
def lookAheadAt (v : Survey) (s : State) (i : Nat) : Except Failure State := do
  match ← v.lookaheadOf (← s.transition i) with
  | some l => s.setLookahead i l
  | none => return s

/-- If the reduction at `r` and the shift at `s` are in conflict as they are now,
both get the lookahead that their origins call for. -/
def lookAheadPair (v : Survey) (now : State) (r s : Nat) : Except Failure (State × Bool) := do
  let reduction ← now.transition r
  let shift ← now.transition s
  if reduction.conflictsWith shift then
    let now ← lookAheadAt v now s
    return (← lookAheadAt v now r, true)
  else return (now, false)

/-- Goes through all pairs of a reduction and a shift, and notes the positions of
those that were in conflict. -/
def lookAhead (v : Survey) (s : State) : Except Failure (State × List (Nat × Nat)) :=
  let pairs := (positionsOf .reduce s.transitions).flatMap fun r =>
    (positionsOf .shift s.transitions).map fun i => (r, i)
  pairs.foldlM
    (fun (now, noted) pair => do
      let (now, changed) ← lookAheadPair v now pair.1 pair.2
      return (now, if changed then noted ++ [pair] else noted))
    (s, [])

/-! ## Settling by priority -/

/-- The state of settling: the state of the automaton as trimmed so far, the positions of the
transitions that are to be dropped, in ascending order, and for each pair that was settled the
transition that was favoured and the one that gave way. -/
structure Settlement where
  state : State
  doomed : List Nat
  verdicts : List (Transition × Transition)

/-- The transition at `low` gives up what the one at `high` claims. -/
def trimAt (g : Grammar) (s : State) (low high : Nat) : Except Failure State := do
  let higher ← s.transition high
  let lower ← s.transition low
  s.setLookahead low (lower.lookahead.without g higher.lookahead)

/-- Settles the pair at `low` and `high`: the lower one is trimmed, and doomed if the two are in
conflict even then. -/
def Settlement.yield (g : Grammar) (m : Settlement) (low high : Nat) :
    Except Failure Settlement := do
  let s ← trimAt g m.state low high
  let lower ← s.transition low
  let higher ← s.transition high
  return { state := s
           doomed := if lower.conflictsWith higher then addPosition low m.doomed else m.doomed
           verdicts := m.verdicts ++ [(higher, lower)] }

/-- Settles a pair that is in conflict as it is now, if the priorities differ.  A
doomed transition still takes part. -/
def Settlement.settle (v : Survey) (m : Settlement) (i j : Nat) : Except Failure Settlement := do
  let t ← m.state.transition i
  let u ← m.state.transition j
  if t.conflictsWith u then
    let p ← v.priority t
    let q ← v.priority u
    if p < q then m.yield v.grammar i j
    else if q < p then m.yield v.grammar j i
    else return m
  else return m

/-- Reductions first and then shifts, each with all that come after it. -/
def settlingOrder (ts : List Transition) : List (Nat × Nat) :=
  orderedPairs (positionsOf .reduce ts ++ positionsOf .shift ts)

/-- Settles some pairs one after the other. -/
def Settlement.settleAll (v : Survey) (m : Settlement) (pairs : List (Nat × Nat)) :
    Except Failure Settlement :=
  pairs.foldlM (fun m pair => Settlement.settle v m pair.1 pair.2) m

/-- Settles all pairs and drops what was doomed. -/
def settle (v : Survey) (s : State) :
    Except Failure (State × List (Transition × Transition)) := do
  let m ← Settlement.settleAll v ⟨s, [], []⟩ (settlingOrder s.transitions)
  return (← m.state.removeAll m.doomed, m.verdicts)

/-! ## Cleaning up -/

/-- Drops the transitions that no input can reach. -/
def bury (s : State) : Except Failure State :=
  s.removeAll (positionsWhere (fun t => t.lookahead.isDead) s.transitions)

/-- A transition whose lookahead decides nothing: all transitions on its symbol
have its outcome. -/
def isSettled (ts : List Transition) (t : Transition) : Bool :=
  ts.all fun u => u.symbol != t.symbol || u.sameOutcome t

/-- Takes away the lookaheads that decide nothing. -/
def compact (s : State) : Except Failure State :=
  let settled := positionsWhere (fun t => !t.lookahead.isAny && isSettled s.transitions t)
    s.transitions
  settled.foldlM (fun s i => s.setLookahead i .any) s

end Refinement

/-! ## The passes on an automaton -/

namespace Automaton

/-- How many transitions there are. -/
def transitionCount (a : Automaton) : Nat := (a.states.flatMap State.transitions).length

/-- Replaces the state at a position by what a step makes of it, and keeps what the step tells. -/
def reworkAt {β : Type} (f : State → Except Failure (State × β))
    (m : Automaton × List (State × β)) (i : Nat) : Except Failure (Automaton × List (State × β)) :=
  match m.1.states[i]? with
  | some s => do
      let (s, note) ← f s
      return (⟨m.1.states.set i s⟩, m.2 ++ [(s, note)])
  | none => .error (.invalidState i)

/-- Replaces one state after the other. -/
def reworkStates {β : Type} (f : State → Except Failure (State × β)) (a : Automaton) :
    Except Failure (Automaton × List (State × β)) :=
  (List.range a.size).foldlM (reworkAt f) (a, [])

/-- The same with a step that tells nothing. -/
def rework (f : State → Except Failure State) (a : Automaton) : Except Failure Automaton := do
  return (← a.reworkStates fun s => do return (← f s, ())).1

def prune (v : Survey) (a : Automaton) : Except Failure Automaton := a.rework (Refinement.prune v)

def lookAhead (v : Survey) (a : Automaton) : Except Failure (Automaton × List Event) := do
  let (b, notes) ← a.reworkStates (Refinement.lookAhead v)
  return (b, notes.flatMap fun (s, pairs) =>
    pairs.map fun (r, shift) => .lookedAhead s.id.index shift r)

def settle (v : Survey) (a : Automaton) : Except Failure (Automaton × List Event) := do
  let (b, notes) ← a.reworkStates (Refinement.settle v)
  return (b, notes.flatMap fun (s, verdicts) =>
    verdicts.map fun (high, low) => .favoured s.id.index high low)

def bury (a : Automaton) : Except Failure Automaton := a.rework Refinement.bury

def compact (a : Automaton) : Except Failure Automaton := a.rework Refinement.compact

/-- The follow sets are only needed where something reduces. -/
def hasReductions (a : Automaton) : Bool :=
  a.states.any fun s => s.transitions.any fun t => t.kind == .reduce

/-- What is reported about the follow sets. -/
def followEvents (g : Grammar) (a : Automaton) : Except Failure (List Event) := do
  let followers ← Checked.followers g (a.items g)
  return if a.hasReductions then [.followed followers.length] else []

/-- All five passes, and what they report. -/
def refine (g : Grammar) (a : Automaton) : Except Failure (Automaton × List Event) := do
  let v ← Checked.survey g a
  let followed ← a.followEvents g
  let pruned ← a.prune v
  let dropped := Event.pruned (a.transitionCount - pruned.transitionCount)
  let (ahead, looks) ← pruned.lookAhead v
  let (settled, verdicts) ← ahead.settle v
  let buried ← settled.bury
  return (← buried.compact, followed ++ [dropped] ++ looks ++ verdicts)

end Automaton
end ShiftReduce
