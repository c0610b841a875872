/-
Grammar symbols.

A grammar keeps its symbols in one table.  The first two entries are the same in
every grammar: the end marker, which stands for the end of the input, and the
accepting symbol, which is the left side of rule 0 and of no other rule.
-/
import ShiftReduce.Handle

namespace ShiftReduce

inductive SymbolKind where
  | terminal
  | nonterminal
  | endMarker
deriving DecidableEq

structure Symbol where
  name : String
  kind : SymbolKind
deriving DecidableEq

namespace Symbol

/-- The end marker counts as a terminal: it is an input symbol with a column in
the action table. -/
def isTerminal (s : Symbol) : Bool :=
  match s.kind with
  | .terminal | .endMarker => true
  | .nonterminal => false

def isNonterminal (s : Symbol) : Bool := s.kind == .nonterminal

def isEndMarker (s : Symbol) : Bool := s.kind == .endMarker

/-- A symbol is a terminal or a nonterminal and never both. -/
theorem isTerminal_eq_not_isNonterminal (s : Symbol) : s.isTerminal = !s.isNonterminal := by
  cases s with
  | mk name kind => cases kind <;> rfl

/-- The name of the end marker. -/
def endName : String := "$end"

/-- The name of the accepting symbol. -/
def acceptName : String := "$accept"

/-- The two names no declaration may use. -/
def isReserved (name : String) : Bool := name == endName || name == acceptName

end Symbol

abbrev SymbolId := Handle Symbol

namespace SymbolId

/-- The end of the input, entry 0 of every symbol table. -/
def endMarker : SymbolId := ⟨0, by decide⟩

/-- The accepting symbol, entry 1 of every symbol table. -/
def accept : SymbolId := ⟨1, by decide⟩

end SymbolId
end ShiftReduce
