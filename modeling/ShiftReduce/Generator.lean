/-
Generators: from a grammar to its parse tables.

The plain generator builds the automaton and insists that it has no conflict.  The
refining one settles conflicts first, by lookahead and by priority.

`Grammar.tables` says which tables these are, and `Grammar.generate` makes them with accesses that
can be refused.
-/
import ShiftReduce.Bnf.Grammar
import ShiftReduce.Automaton.Conflict
import ShiftReduce.Checked.Construction
import ShiftReduce.Checked.Table
import ShiftReduce.Refinement

namespace ShiftReduce

inductive Method where
  /-- Tables of the automaton as it is. -/
  | plain
  /-- Tables of the automaton refined by lookahead and priority. -/
  | refined
deriving DecidableEq

namespace Grammar

/-- Tables without any lookahead. -/
def plainTables (g : Grammar) : Except Failure Tables := do
  let a := Automaton.build g
  a.check g
  a.tables g

/-- Tables with lookahead and priorities. -/
def refinedTables (g : Grammar) : Except Failure Tables := do
  let (a, _) ← (Automaton.build g).refine g
  a.check g
  a.tables g

def tables (method : Method) (g : Grammar) : Except Failure Tables :=
  match method with
  | .plain => g.plainTables
  | .refined => g.refinedTables

/-- The automaton that tables are made of. -/
def automaton (method : Method) (g : Grammar) : Except Failure Automaton := do
  let a ← Checked.build g
  match method with
  | .plain => return a
  | .refined => return (← a.refine g).1

/-- What a generator does: it makes the tables without looking anything up in vain. -/
def generate (method : Method) (g : Grammar) : Except Failure Tables := do
  let a ← g.automaton method
  a.check g
  Checked.tables g a

/-- Tables of the grammar that a text describes. -/
def tablesOfText (text : String) : Except Failure Tables := do
  let g ← (ofText text).mapError .grammar
  g.generate .refined

end Grammar

namespace Automaton

/-- What is reported while the automaton is built. -/
def buildEvents (a : Automaton) : List Event :=
  (a.states.map fun s => .populated s.id.index s.itemSet.size s.transitions.length) ++
    [.built a.size]

end Automaton

namespace Grammar

/-- What a generator reports while it works on a grammar, whether it succeeds or
not. -/
def events (method : Method) (g : Grammar) : List Event :=
  let a := Automaton.build g
  match method with
  | .plain => a.buildEvents
  | .refined =>
      match a.refine g with
      | .ok (_, events) => a.buildEvents ++ events
      | .error _ => a.buildEvents

/-- The events in written form, each with its level. -/
def log (method : Method) (g : Grammar) : Except Failure (List (Level × String)) :=
  let a := Automaton.build g
  (g.events method).mapM fun event => do return (event.level, ← event.render g a)

end Grammar
end ShiftReduce
