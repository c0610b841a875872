/-
Construction of the automaton of a grammar.

The first state holds the closure of the rules of the accepting symbol.  States
are then visited in the order of their numbers.  A visit looks at the symbols
behind the dots of the state, in the order in which they first occur; moving the
dots over such a symbol and closing gives the items of a successor, which is
added unless a state has them already.  Each item of the visited state then gets
its transitions.

There are no more states than sets of items of the grammar, which is the bound on
the number of visits.
-/
import ShiftReduce.Automaton.Basic

namespace ShiftReduce
namespace Automaton

/-- The symbols behind the dots of some items, each once, in the order of their
first occurrence. -/
def nextSymbols (g : Grammar) (items : List Item) : List SymbolId :=
  (items.filterMap (Item.next? g)).eraseDups

/-- What the dot moving over `x` makes of some items: the closure of the items
that had `x` behind the dot. -/
def successor (g : Grammar) (items : List Item) (x : SymbolId) : ItemSet :=
  (ItemSet.ofList <|
    (items.filter fun item => item.next? g == some x).filterMap (Item.advance? g)).close g

/-- Adds states for named item sets and tells which state each name leads to. -/
def addStates : List (SymbolId × ItemSet) → Automaton → List (SymbolId × StateId) × Automaton
  | [], a => ([], a)
  | (x, set) :: rest, a =>
      let (id, a) := a.addState set
      let (targets, a) := addStates rest a
      ((x, id) :: targets, a)

/-- The transitions of an item at a position of a state, given where each symbol
leads.  A complete item reduces on every input symbol, unless it is that of rule
0, which accepts at the end of the input. -/
def outgoing (g : Grammar) (targets : List (SymbolId × StateId)) (origin : Site) (item : Item) :
    List Transition :=
  match item.next? g with
  | some x =>
      match targets.lookup x with
      | some target =>
          [⟨origin, x, if g.isTerminal x then .shift target .any else .goto target⟩]
      | none => []
  | none =>
      if item.atEnd g && item.left g == .accept then [⟨origin, .endMarker, .accept⟩]
      else if item.reduces g then g.inputSymbols.map fun x => ⟨origin, x, .reduce .any⟩
      else []

/-- Adds the successors of the state at a position and then its transitions. -/
def visit (g : Grammar) (a : Automaton) (i : Nat) : Automaton :=
  match a.states[i]? with
  | none => a
  | some s =>
      let items := s.itemSet.items
      let successors := (nextSymbols g items).map fun x => (x, successor g items x)
      let (targets, a) := addStates successors a
      let transitions := items.zipIdx.flatMap fun entry =>
        outgoing g targets ⟨Handle.ofNat i, entry.2⟩ entry.1
      { a with states := a.states.modify i fun s => s.addAll transitions }

/-- Visits the states from a position on, those that appear on the way included. -/
def populateFrom (g : Grammar) : Nat → Nat → Automaton → Automaton
  | 0, _, a => a
  | bound + 1, i, a => if i < a.size then populateFrom g bound (i + 1) (a.visit g i) else a

/-- Completes an automaton: visits all its states and all that appear. -/
def populate (g : Grammar) (a : Automaton) : Automaton :=
  populateFrom g (Nat.pow 2 g.items.length) 0 a

/-- The rules of the accepting symbol with the dot in front, closed. -/
def startSet (g : Grammar) : ItemSet :=
  (ItemSet.ofList ((g.rulesFor .accept).map fun r => ⟨r, 0⟩)).close g

/-- The automaton with nothing but its first state. -/
def initial (g : Grammar) : Automaton := (empty.addState (startSet g)).2

/-- The automaton of a grammar. -/
def build (g : Grammar) : Automaton := (initial g).populate g

end Automaton
end ShiftReduce
