/-
Transitions.

A transition leads out of a state on one symbol.  It stems from an item of the
state, its origin, and its move says what the parser does.  Only shifts and
reductions can depend on the input behind the symbol, so only they carry a
lookahead.

Two notions of sameness matter.  `sameEdge` is identity apart from the lookahead:
a state never has the same edge twice.  `sameOutcome` asks whether the parser
ends up doing the same, whatever the origins of a shift and whatever the
lookaheads; two transitions on one symbol that differ in this and can both apply
are in conflict.
-/
import ShiftReduce.Item.Set
import ShiftReduce.Lookahead

namespace ShiftReduce

inductive Move where
  /-- Read the symbol and go to a state. -/
  | shift (target : StateId) (lookahead : Lookahead)
  /-- Go to a state after a reduction to the symbol. -/
  | goto (target : StateId)
  /-- Reduce by the rule of the origin while the symbol is ahead. -/
  | reduce (lookahead : Lookahead)
  | accept
deriving DecidableEq

inductive MoveKind where
  | shift
  | goto
  | reduce
  | accept
deriving DecidableEq

namespace Move

def kind : Move → MoveKind
  | shift _ _ => .shift
  | goto _ => .goto
  | reduce _ => .reduce
  | accept => .accept

def target? : Move → Option StateId
  | shift target _ => some target
  | goto target => some target
  | reduce _ => none
  | accept => none

def lookahead : Move → Lookahead
  | shift _ l => l
  | goto _ => .any
  | reduce l => l
  | accept => .any

/-- The move with another lookahead, if it carries one at all. -/
def withLookahead (l : Lookahead) : Move → Move
  | shift target _ => shift target l
  | goto target => goto target
  | reduce _ => reduce l
  | accept => accept

/-- Only shifts and reductions carry a lookahead. -/
def carriesLookahead : Move → Bool
  | shift _ _ => true
  | goto _ => false
  | reduce _ => true
  | accept => false

end Move

structure Transition where
  origin : Site
  symbol : SymbolId
  move : Move
deriving DecidableEq

namespace Transition

def kind (t : Transition) : MoveKind := t.move.kind

def target? (t : Transition) : Option StateId := t.move.target?

def lookahead (t : Transition) : Lookahead := t.move.lookahead

def withLookahead (t : Transition) (l : Lookahead) : Transition :=
  { t with move := t.move.withLookahead l }

theorem withLookahead_lookahead (t : Transition) : t.withLookahead t.lookahead = t := by
  obtain ⟨origin, symbol, move⟩ := t
  cases move <;> rfl

/-- The transition apart from its lookahead. -/
def edge (t : Transition) : Transition := t.withLookahead .any

/-- The two agree in everything but the lookahead. -/
def sameEdge (t u : Transition) : Bool := t.edge == u.edge

/-- Taking either of the two leaves the parser in the same place.  Reductions are
told apart by their origin, and so by their rule. -/
def sameOutcome (t u : Transition) : Bool :=
  match t.move, u.move with
  | .shift a _, .shift b _ => a == b
  | .goto a, .goto b => a == b
  | .reduce _, .reduce _ => t.origin == u.origin
  | .accept, .accept => true
  | _, _ => false

/-- The parser could not choose: same state, same symbol, input that both allow,
and not the same outcome. -/
def conflictsWith (t u : Transition) : Bool :=
  t.origin.state == u.origin.state && t.symbol == u.symbol &&
    !t.lookahead.disjoint u.lookahead && !t.sameOutcome u

theorem sameOutcome_refl (t : Transition) : t.sameOutcome t = true := by
  unfold sameOutcome
  cases t.move <;> simp

theorem sameOutcome_comm (t u : Transition) : t.sameOutcome u = u.sameOutcome t := by
  unfold sameOutcome
  cases t.move <;> cases u.move <;> simp [Bool.beq_comm]

/-- Conflict is mutual. -/
theorem conflictsWith_comm (t u : Transition) : t.conflictsWith u = u.conflictsWith t := by
  rw [conflictsWith, conflictsWith, sameOutcome_comm, Lookahead.disjoint_comm,
    Bool.beq_comm (a := t.origin.state), Bool.beq_comm (a := t.symbol)]

theorem conflictsWith_self (t : Transition) : t.conflictsWith t = false := by
  rw [conflictsWith, sameOutcome_refl, Bool.not_true, Bool.and_false]

def conflictKind (t u : Transition) : ConflictKind :=
  match t.kind, u.kind with
  | .shift, .reduce => .shiftReduce
  | .reduce, .shift => .shiftReduce
  | .reduce, .reduce => .reduceReduce
  | _, _ => .strange

end Transition
end ShiftReduce
