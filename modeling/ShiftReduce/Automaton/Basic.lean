/-
Automata.

An automaton is a list of states.  States are added one at a time and never taken
away, and a state is only added if no other has the same items, so an item set is
as good a name for a state as its number.
-/
import ShiftReduce.State
import ShiftReduce.Checked.Item

namespace ShiftReduce

structure Automaton where
  states : List State
deriving DecidableEq

namespace Automaton

def empty : Automaton := ⟨[]⟩

def size (a : Automaton) : Nat := a.states.length

def state? (a : Automaton) (id : StateId) : Option State := a.states[id.index]?

def state (a : Automaton) (id : StateId) : Except Failure State :=
  match a.state? id with
  | some s => .ok s
  | none => .error (.invalidState id.index)

/-- The automaton with one state replaced. -/
def setState (a : Automaton) (id : StateId) (s : State) : Automaton :=
  ⟨a.states.set id.index s⟩

/-- The state with the same items as a set. -/
def stateWith? (a : Automaton) (set : ItemSet) : Option StateId :=
  (a.states.find? fun s => s.itemSet.same set).map State.id

def stateWith (a : Automaton) (set : ItemSet) : Except Failure StateId :=
  match a.stateWith? set with
  | some id => .ok id
  | none => .error .stateNotFound

/-- Adds a state with these items unless there is one, and tells which state has
them now. -/
def addState (a : Automaton) (set : ItemSet) : StateId × Automaton :=
  match a.stateWith? set with
  | some id => (id, a)
  | none =>
      let id := Handle.ofNat a.size
      (id, ⟨a.states ++ [.make id set]⟩)

/-- The item at a site. -/
def item (a : Automaton) (site : Site) : Except Failure Item := do
  let s ← a.state site.state
  match s.itemSet.items[site.position]? with
  | some item => .ok item
  | none => .error (.invalidSite site.state.index site.position)

/-- All places where an item stands. -/
def sites (a : Automaton) : List Site :=
  a.states.flatMap fun s => (List.range s.itemSet.size).map fun position => ⟨s.id, position⟩

/-- The first place where an item is found. -/
def locate (g : Grammar) (a : Automaton) (item : Item) : Except Failure Site :=
  let found := a.states.findSome? fun s =>
    (s.itemSet.position? item).map fun position => (⟨s.id, position⟩ : Site)
  match found with
  | some site => .ok site
  | none => do .error (.itemNotFound (← Checked.render g item))

/-- All places of items with this symbol right before the dot. -/
def withPrevious (g : Grammar) (a : Automaton) (x : SymbolId) : List Site :=
  a.states.flatMap fun s => (s.itemSet.withPrevious g x).map fun entry => ⟨s.id, entry.1⟩

/-- The items of the grammar that some state has, each of them once. -/
def items (g : Grammar) (a : Automaton) : List Item :=
  g.items.filter fun item => a.states.any fun s => s.itemSet.contains item

end Automaton
end ShiftReduce
