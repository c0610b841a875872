/-
Why a request about an automaton is refused.

Most causes name a handle or a position that leads nowhere.  `conflict` is the
one that a user of the generator meets: the grammar leaves a state in which the
parser could not choose, and the report shows that state.
-/
import ShiftReduce.Grammar.Error

namespace ShiftReduce

/-- Which two kinds of transition are in each other's way. -/
inductive ConflictKind where
  | shiftReduce
  | reduceReduce
  /-- Any other two, such as two shifts to different states. -/
  | strange
deriving DecidableEq

namespace ConflictKind

def render : ConflictKind → String
  | shiftReduce => "shift/reduce"
  | reduceReduce => "reduce/reduce"
  | strange => "strange"

end ConflictKind

/-- A conflict in written form: where it is, the two transitions, the items of
the state and the grammar. -/
structure ConflictReport where
  kind : ConflictKind
  state : Nat
  first : String
  second : String
  items : String
  grammar : String
deriving DecidableEq

namespace ConflictReport

def render (r : ConflictReport) : String :=
  r.kind.render ++ " conflict in state " ++ toString r.state ++ "\n  " ++ r.first ++ "\n  " ++
    r.second ++ "\nitems:\n" ++ r.items ++ "grammar:\n" ++ r.grammar

end ConflictReport

inductive Failure where
  /-- The grammar itself is refused. -/
  | grammar (cause : GrammarError)
  /-- A dot would stand behind the end of its rule. -/
  | invalidItem (rule dot length : Nat)
  | invalidState (state : Nat)
  | invalidTransition (state index : Nat)
  /-- A state has no item at a position. -/
  | invalidSite (state position : Nat)
  /-- No state has the items that were asked for. -/
  | stateNotFound
  /-- No state has the item, which is given in written form. -/
  | itemNotFound (item : String)
  /-- An item with its dot in front is neither in the kernel nor introduced by an
  item before it; it is given in written form. -/
  | unintroduced (item : String)
  | conflict (report : ConflictReport)
  /-- A handle points past the end of the table it is for. -/
  | foreignHandle
deriving DecidableEq

namespace Failure

def message : Failure → String
  | grammar cause => cause.message
  | invalidItem rule dot length =>
      "cannot put the dot at position " ++ toString dot ++ " of rule " ++ toString rule ++
        ", which has " ++ toString length ++ " symbols"
  | invalidState state => "state " ++ toString state ++ " does not exist"
  | invalidTransition state index =>
      "transition " ++ toString index ++ " does not exist in state " ++ toString state
  | invalidSite state position =>
      "item " ++ toString position ++ " does not exist in state " ++ toString state
  | stateNotFound => "no state has the requested item set"
  | itemNotFound item => "no state contains the item `" ++ item ++ "`"
  | unintroduced item =>
      "closure item `" ++ item ++ "` has no item introducing it in its state"
  | conflict report => report.render
  | foreignHandle => "a handle points past the end of its table"

/-- The answer, or else the failure that a handle was foreign. -/
def orForeign {α : Type} : Option α → Except Failure α
  | some a => .ok a
  | none => .error foreignHandle

end Failure
end ShiftReduce
