/-
Events: what a generator reports while it works.

An event is data.  Its text is made at the end, from the automaton it is about:
the items of an automaton do not change while it is refined, and the transitions
that an event shows are the ones of its moment.
-/
import ShiftReduce.Automaton.Render

namespace ShiftReduce

/-- How much an event matters. -/
inductive Level where
  | debug
  | trace
deriving DecidableEq

namespace Level

def render : Level → String
  | debug => "DEBUG"
  | trace => "TRACE"

end Level

inductive Event where
  /-- A state got its transitions. -/
  | populated (state items transitions : Nat)
  /-- The automaton has all its states. -/
  | built (states : Nat)
  /-- The follow sets were computed from so many items. -/
  | followed (items : Nat)
  /-- So many reductions were dropped because their symbol cannot follow. -/
  | pruned (reductions : Nat)
  /-- Two transitions of a state, given by position, got their lookaheads. -/
  | lookedAhead (state shift reduce : Nat)
  /-- Of two transitions in conflict one has the higher priority; the other is
  shown as it is after giving way. -/
  | favoured (state : Nat) (high low : Transition)
deriving DecidableEq

namespace Event

def level : Event → Level
  | populated _ _ _ => .trace
  | built _ => .debug
  | followed _ => .trace
  | pruned _ => .debug
  | lookedAhead _ _ _ => .trace
  | favoured _ _ _ => .debug

/-- The text of an event about an automaton.  It is refused if the event shows a
transition with a foreign symbol. -/
def render (g : Grammar) (a : Automaton) : Event → Except Failure String
  | populated state items transitions =>
      .ok ("state " ++ toString state ++ ": " ++ toString items ++ " items, " ++
        toString transitions ++ " transitions")
  | built states => .ok ("LR(0) automaton has " ++ toString states ++ " states")
  | followed items => .ok ("computed follow sets over " ++ toString items ++ " items")
  | pruned reductions =>
      .ok ("removed " ++ toString reductions ++ " reductions outside their follow sets")
  | lookedAhead state shift reduce =>
      .ok ("state " ++ toString state ++ ": lookahead for transitions " ++ toString shift ++
        " and " ++ toString reduce)
  | favoured state high low => do
      return "state " ++ toString state ++ ": priority favours `" ++ (← high.render g a) ++
        "` over `" ++ (← low.render g a) ++ "`"

end Event
end ShiftReduce
