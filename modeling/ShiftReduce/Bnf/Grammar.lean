/-
From definitions to a grammar.

Every defined name is a nonterminal and every other name a terminal.  The defined
names are declared first and in their order, so a name gets the same kind
wherever it occurs, and the first definition names the start symbol.  Each
alternative becomes one rule, in order.
-/
import ShiftReduce.Bnf.Reader
import ShiftReduce.Grammar.Builder

namespace ShiftReduce
namespace Bnf

/-- Declares the defined names. -/
def declareDefined (definitions : List Definition) (b : Builder) : Except GrammarError Builder :=
  definitions.foldlM (fun b d => do return (← b.nonterminal d.name).2) b

/-- The symbols of an alternative, declared where they are new. -/
def declareOccurrences (defined : List String) :
    List Occurrence → Builder → Except GrammarError (List SymbolId × Builder)
  | [], b => .ok ([], b)
  | o :: rest, b => do
      let (id, b) ← b.declare o.name (if defined.contains o.name then .nonterminal else .terminal)
      let (ids, b) ← declareOccurrences defined rest b
      return (id :: ids, b)

/-- The positions of an alternative that are bound, with their names. -/
def Alternative.bindings (a : Alternative) : List (Nat × String) :=
  a.symbols.zipIdx.filterMap fun entry => entry.1.binding.map fun name => (entry.2, name)

/-- Adds the rule of one alternative of `left`. -/
def addAlternative (defined : List String) (left : SymbolId) (b : Builder) (a : Alternative) :
    Except GrammarError Builder := do
  let (right, b) ← declareOccurrences defined a.symbols b
  return b.rule { left, right, priority := a.priority, bindings := a.bindings }

/-- Adds the rules of one definition. -/
def addDefinition (defined : List String) (b : Builder) (d : Definition) :
    Except GrammarError Builder := do
  let (left, b) ← b.nonterminal d.name
  d.alternatives.foldlM (addAlternative defined left) b

end Bnf

namespace Grammar

/-- The grammar that a list of definitions describes. -/
def ofDefinitions (definitions : List Bnf.Definition) : Except GrammarError Grammar :=
  match definitions with
  | [] => .error (.malformed .noDefinitions)
  | first :: _ => do
      let defined := definitions.map Bnf.Definition.name
      let b ← Bnf.declareDefined definitions .empty
      let b ← definitions.foldlM (Bnf.addDefinition defined) b
      let (start, b) ← b.nonterminal first.name
      b.build start

/-- The grammar that a text describes. -/
def ofText (text : String) : Except GrammarError Grammar := do
  ofDefinitions (← Bnf.read text)

end Grammar
end ShiftReduce
