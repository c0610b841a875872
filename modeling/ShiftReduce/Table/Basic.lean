/-
Parse tables.

The tables are what a parser needs of an automaton: for each state a row of
actions under the names of input symbols and a row of states under the names of
nonterminals, and for each rule that some state reduces by a description of the
reduction.
-/
import ShiftReduce.Automaton.Basic
import ShiftReduce.Table.Action

namespace ShiftReduce

/-- What a parser needs to know to reduce by a rule. -/
structure Reduction where
  rule : Nat
  left : String
  right : List String
  /-- The names the symbols of the right side are bound to. -/
  symbols : List (Option String)
  action : Option String
  text : String
deriving DecidableEq

structure Tables where
  action : List (Row Action)
  goto : List (Row Nat)
  reductions : List Reduction

namespace Lookahead

/-- The sets up to the first empty one.  What follows an empty set is never asked
for. -/
def throughEmpty : List SymbolSet → List SymbolSet
  | [] => []
  | s :: rest => if s.isEmpty then [s] else s :: throughEmpty rest

/-- The names that each position allows, if the symbols belong to the grammar. -/
def columns? (g : Grammar) (l : Lookahead) : Option (List (List String)) :=
  (throughEmpty l.positions).mapM (SymbolSet.names? g)

end Lookahead

namespace Grammar

/-- The names the right side of a rule is bound to. -/
def bindingsOf (g : Grammar) (r : RuleId) : List (Option String) :=
  ((g.rule? r).map Rule.bindings).getD []

/-- The description of a reduction by a rule. -/
def reduction (g : Grammar) (r : RuleId) : Reduction :=
  { rule := r.index, left := g.nameOf (g.leftOf r), right := (g.rightOf r).map g.nameOf,
    symbols := g.bindingsOf r, action := (g.rule? r).bind Rule.action,
    text := ((g.rule? r).map (Rule.render g)).getD "" }

end Grammar

namespace Automaton

/-! ## Actions -/

/-- What a transition makes the parser do on an input symbol; a goto does nothing
there. -/
def action? (g : Grammar) (a : Automaton) (t : Transition) : Except Failure (Option Action) :=
  match t.move with
  | .accept => .ok (some .accept)
  | .shift target _ => .ok (some (.shift target.index))
  | .reduce _ => do
      let item ← a.item t.origin
      return some (.reduce item.rule.index (g.nameOf (item.left g)) (g.bindingsOf item.rule))
  | .goto _ => .ok none

/-- Puts the action of a transition into a row. -/
def addAction (g : Grammar) (a : Automaton) (row : Row Action) (t : Transition) :
    Except Failure (Row Action) := do
  match ← a.action? g t with
  | none => return row
  | some action =>
      let column ← Failure.orForeign (g.name? t.symbol)
      let positions ← Failure.orForeign (t.lookahead.columns? g)
      return action.insert positions column row

/-- The transitions of a state in the order in which they are put into its row:
accepts, shifts, reductions. -/
def actionOrder (ts : List Transition) : List Transition :=
  [MoveKind.accept, .shift, .reduce].flatMap fun kind => ts.filter fun t => t.kind == kind

def actionRow (g : Grammar) (a : Automaton) (s : State) : Except Failure (Row Action) :=
  (actionOrder s.transitions).foldlM (a.addAction g) []

def actionTable (g : Grammar) (a : Automaton) : Except Failure (List (Row Action)) :=
  a.states.mapM (a.actionRow g)

/-! ## Gotos -/

/-- Puts the target of a goto into a row. -/
def addGoto (g : Grammar) (row : Row Nat) (t : Transition) : Except Failure (Row Nat) :=
  match t.move with
  | .goto target => do
      let column ← Failure.orForeign (g.name? t.symbol)
      return row.put column target.index
  | .shift _ _ | .reduce _ | .accept => .ok row

def gotoTable (g : Grammar) (a : Automaton) : Except Failure (List (Row Nat)) :=
  a.states.mapM fun s => s.transitions.foldlM (addGoto g) []

/-! ## Reductions -/

/-- The rules that some state reduces by, each once, in the order of their first
appearance. -/
def reducedRules (a : Automaton) : Except Failure (List RuleId) := do
  let reductions := a.states.flatMap fun s => s.transitions.filter fun t => t.kind == .reduce
  let items ← reductions.mapM fun t => a.item t.origin
  return (items.map Item.rule).eraseDups

def reductions (g : Grammar) (a : Automaton) : Except Failure (List Reduction) := do
  return (← a.reducedRules).map g.reduction

/-! ## All of them -/

def tables (g : Grammar) (a : Automaton) : Except Failure Tables := do
  return { action := ← a.actionTable g, goto := ← a.gotoTable g, reductions := ← a.reductions g }

end Automaton

namespace Tables

/-- The action of a state on an input symbol. -/
def action? (t : Tables) (state : Nat) (terminal : String) : Option Action :=
  t.action[state]?.bind fun row => row.find? terminal

/-- The state a state goes to after a reduction. -/
def goto? (t : Tables) (state : Nat) (nonterminal : String) : Option Nat :=
  t.goto[state]?.bind fun row => row.find? nonterminal

end Tables
end ShiftReduce
