/-
Parse tables where nothing is looked up in vain.

The tables are those of `ShiftReduce.Table.Basic`, made with accesses that are refused where the
grammar has no such rule or symbol.  The goto table and the rules that are reduced by need nothing of
that kind.
-/
import ShiftReduce.Checked.Item
import ShiftReduce.Table.Basic

namespace ShiftReduce
namespace Checked

/-- What a transition makes the parser do on an input symbol; a goto does nothing
there. -/
def action (g : Grammar) (a : Automaton) (t : Transition) : Except Failure (Option Action) :=
  match t.move with
  | .accept => .ok (some .accept)
  | .shift target _ => .ok (some (.shift target.index))
  | .reduce _ => do
      let item ← a.item t.origin
      let r ← rule g item.rule
      let left ← name g r.left
      return some (.reduce item.rule.index left r.bindings)
  | .goto _ => .ok none

/-- Puts the action of a transition into a row. -/
def addAction (g : Grammar) (a : Automaton) (row : Row Action) (t : Transition) :
    Except Failure (Row Action) := do
  match ← action g a t with
  | none => return row
  | some action =>
      let column ← name g t.symbol
      let positions ← Failure.orForeign (t.lookahead.columns? g)
      return action.insert positions column row

def actionRow (g : Grammar) (a : Automaton) (s : State) : Except Failure (Row Action) :=
  (Automaton.actionOrder s.transitions).foldlM (addAction g a) []

def actionTable (g : Grammar) (a : Automaton) : Except Failure (List (Row Action)) :=
  a.states.mapM (actionRow g a)

/-- The description of a reduction by a rule. -/
def reduction (g : Grammar) (id : RuleId) : Except Failure Reduction := do
  let r ← rule g id
  let left ← name g r.left
  let right ← r.right.mapM (name g)
  let text ← renderRule g r
  return { rule := id.index, left, right, symbols := r.bindings, action := r.action, text }

def reductions (g : Grammar) (a : Automaton) : Except Failure (List Reduction) := do
  (← a.reducedRules).mapM (reduction g)

def tables (g : Grammar) (a : Automaton) : Except Failure Tables := do
  return { action := ← actionTable g a, goto := ← a.gotoTable g, reductions := ← reductions g a }

end Checked
end ShiftReduce
