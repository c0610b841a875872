/-
The written form of transitions and automata.

A transition may have been put together by hand.  If its origin leads nowhere the
text says so; if its symbol or a symbol of its lookahead is foreign to the
grammar it has no text.
-/
import ShiftReduce.Automaton.Basic

namespace ShiftReduce

namespace Transition

/-- The item a transition stems from, or a note that it is missing. -/
def renderOrigin (g : Grammar) (a : Automaton) (t : Transition) : Except Failure String :=
  match a.item t.origin with
  | .ok item => Checked.render g item
  | .error _ =>
      .ok ("<missing item " ++ toString t.origin.state.index ++ ":" ++
        toString t.origin.position ++ ">")

/-- For instance `shift on + to 4 because of expr -> expr • + term`. -/
def render (g : Grammar) (a : Automaton) (t : Transition) : Except Failure String := do
  let symbol ← Checked.name g t.symbol
  let origin ← t.renderOrigin g a
  let text := match t.move with
    | .shift target _ =>
        "shift on " ++ symbol ++ " to " ++ toString target.index ++ " because of " ++ origin
    | .goto target =>
        "goto on " ++ symbol ++ " to " ++ toString target.index ++ " because of " ++ origin
    | .reduce _ => "reduce on " ++ symbol ++ " using " ++ origin
    | .accept => "accept on " ++ symbol ++ " using " ++ origin
  if t.lookahead.isAny then return text
  else return text ++ " lookahead " ++ (← Failure.orForeign (t.lookahead.render? g))

end Transition

namespace Automaton

/-- The items of a state under its number, and below them its transitions. -/
def renderState (g : Grammar) (a : Automaton) (s : State) : Except Failure String := do
  let items ← Checked.renderItems g s.itemSet
  let transitions ← s.transitions.mapM fun t => t.render g a
  return "state " ++ toString s.id.index ++ ":\n" ++ items ++
    String.join (transitions.map fun text => "    " ++ text ++ "\n")

def render (g : Grammar) (a : Automaton) : Except Failure String := do
  return String.join (← a.states.mapM (a.renderState g))

end Automaton
end ShiftReduce
