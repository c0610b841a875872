/-
The automaton as a labelled graph, for drawing.

There is one node for each state, labelled with its number and its items, and one
edge for each symbol that leads from one state to another, however many
transitions lead there.  If any state accepts there is one more node, to which
every accepting transition has an edge.
-/
import ShiftReduce.Automaton.Basic

namespace ShiftReduce

structure Edge where
  source : Nat
  target : Nat
  label : String
deriving DecidableEq

structure Graph where
  nodes : List String
  edges : List Edge
deriving DecidableEq

namespace Automaton

/-- Adds the edge of a transition.  It is refused if the transition leads to a
state that does not exist or its symbol is foreign to the grammar. -/
def addEdge (g : Grammar) (a : Automaton) (source : Nat) (edges : List Edge) (t : Transition) :
    Except Failure (List Edge) :=
  match t.move with
  | .shift target _ | .goto target => do
      if a.size ≤ target.index then .error .foreignHandle
      else
        let label ← Failure.orForeign (g.name? t.symbol)
        let edge : Edge := ⟨source, target.index, label⟩
        return if edges.contains edge then edges else edges ++ [edge]
  | .accept => do
      let label ← Failure.orForeign (g.name? t.symbol)
      return edges ++ [⟨source, a.size, label⟩]
  | .reduce _ => .ok edges

def accepts (a : Automaton) : Bool :=
  a.states.any fun s => s.transitions.any fun t => t.kind == .accept

def graph (g : Grammar) (a : Automaton) : Except Failure Graph := do
  let edges ← a.states.foldlM
    (fun edges s => s.transitions.foldlM (a.addEdge g s.id.index) edges) []
  let nodes ← a.states.mapM fun s => do
    let items ← Checked.renderItems g s.itemSet
    return toString s.id.index ++ "\n" ++ items
  return { nodes := if a.accepts then nodes ++ ["accept"] else nodes, edges }

end Automaton
end ShiftReduce
