/-
Conflicts of an automaton.

`check` passes if no state has two transitions in conflict.  Otherwise it reports
the first pair of the first such state.
-/
import ShiftReduce.Automaton.Render

namespace ShiftReduce
namespace Automaton

/-- The first state with a conflict, and the positions of the two transitions. -/
def conflict? (a : Automaton) : Option (State × Nat × Nat) :=
  a.states.findSome? fun s => s.conflict?.map fun pair => (s, pair)

/-- The report on two transitions of a state. -/
def report (g : Grammar) (a : Automaton) (s : State) (i j : Nat) :
    Except Failure ConflictReport := do
  let t ← s.transition i
  let u ← s.transition j
  let first ← t.render g a
  let second ← u.render g a
  let items ← Checked.renderItems g s.itemSet
  let grammar ← Checked.renderGrammar g
  return { kind := t.conflictKind u, state := s.id.index, first, second, items, grammar }

/-- Fails with the first conflict. -/
def check (g : Grammar) (a : Automaton) : Except Failure Unit :=
  match a.conflict? with
  | none => .ok ()
  | some (s, i, j) => do
      let r ← a.report g s i j
      .error (.conflict r)

end Automaton
end ShiftReduce
