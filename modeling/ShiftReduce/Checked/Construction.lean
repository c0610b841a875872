/-
The construction of an automaton where nothing is looked up in vain.

This is the construction that a generator runs.  It goes the way of
`ShiftReduce.Automaton.Construction`, and is refused wherever that one would fall back on a default:
a rule or a symbol that the grammar does not have, a first item that its rule has no room for, a
position without a state, a symbol behind a dot that no successor was made for.
-/
import ShiftReduce.Automaton.Construction
import ShiftReduce.Checked.Item

namespace ShiftReduce
namespace Checked

/-- The rules of the accepting symbol with the dot in front, closed. -/
def startSet (g : Grammar) : Except Failure ItemSet := do
  let items ← (g.rulesFor .accept).mapM fun r => Item.make g r 0
  close g (.ofList items)

/-- The symbols behind the dots of some items, each once, in the order of their first
occurrence. -/
def nextSymbols (g : Grammar) (items : List Item) : Except Failure (List SymbolId) := do
  let symbols ← items.mapM (next g)
  return (symbols.filterMap id).eraseDups

/-- The item with its dot moved over `x`, if `x` is what stands behind the dot. -/
def movedOver (g : Grammar) (x : SymbolId) (item : Item) : Except Failure (Option Item) := do
  if (← next g item) = some x then advance g item else return none

/-- What the dot moving over `x` makes of some items. -/
def successor (g : Grammar) (items : List Item) (x : SymbolId) : Except Failure ItemSet := do
  let moved ← items.mapM (movedOver g x)
  close g (.ofList (moved.filterMap id))

/-- The transitions of an item at a position of a state, given where each symbol leads. -/
def outgoing (g : Grammar) (targets : List (SymbolId × StateId)) (origin : Site) (item : Item) :
    Except Failure (List Transition) := do
  match ← next g item with
  | some x =>
      let target ← Failure.orForeign (targets.lookup x)
      if ← isTerminal g x then return [⟨origin, x, .shift target .any⟩]
      else return [⟨origin, x, .goto target⟩]
  | none =>
      if (← atEnd g item) && (← left g item) == .accept then return [⟨origin, .endMarker, .accept⟩]
      else if ← reduces g item then
        return g.inputSymbols.map fun x => ⟨origin, x, .reduce .any⟩
      else return []

/-- Adds the successors of the state at a position and then its transitions. -/
def visit (g : Grammar) (a : Automaton) (i : Nat) : Except Failure Automaton := do
  let id : StateId := Handle.ofNat i
  let items := (← a.state id).itemSet.items
  let symbols ← nextSymbols g items
  let successors ← symbols.mapM fun x => do return (x, ← successor g items x)
  let (targets, a) := Automaton.addStates successors a
  let transitions ← items.zipIdx.mapM fun entry => outgoing g targets ⟨id, entry.2⟩ entry.1
  let s ← a.state id
  return a.setState id (s.addAll transitions.flatten)

/-- Visits the states from a position on, those that appear on the way included. -/
def populateFrom (g : Grammar) : Nat → Nat → Automaton → Except Failure Automaton
  | 0, _, a => .ok a
  | bound + 1, i, a => do
      if i < a.size then populateFrom g bound (i + 1) (← visit g a i) else return a

/-- The automaton of a grammar. -/
def build (g : Grammar) : Except Failure Automaton := do
  let start ← startSet g
  populateFrom g (Nat.pow 2 g.items.length) 0 (Automaton.empty.addState start).2

end Checked
end ShiftReduce
