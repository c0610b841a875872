/-
The written form of rules, grammars and symbol sets.

A rule only holds symbols of its own grammar, so its text always exists.  A set
may hold handles from elsewhere and then has no text.
-/
import ShiftReduce.Grammar.Basic

namespace ShiftReduce

namespace Rule

/-- A binding as it is written behind its symbol. -/
def renderBinding : Option String → String
  | some name => ":" ++ name
  | none => ""

/-- The right side as it is written: each symbol after a blank, followed by its
binding if it has one. -/
def renderRight (g : Grammar) (rule : Rule) : String :=
  String.join <| (rule.right.zip rule.bindings).map fun entry =>
    " " ++ g.nameOf entry.1 ++ renderBinding entry.2

/-- For instance `expr -> expr:l + term:r @2`; an empty right side is written as
an epsilon and priority 0 is left out. -/
def render (g : Grammar) (rule : Rule) : String :=
  g.nameOf rule.left ++ " ->" ++ (if rule.right.isEmpty then " ε" else "") ++
    rule.renderRight g ++ (if rule.priority = 0 then "" else " @" ++ toString rule.priority)

end Rule

namespace Grammar

/-- One numbered line for each rule. -/
def render (g : Grammar) : String :=
  String.join <| g.rules.zipIdx.map fun entry =>
    toString entry.2 ++ ": " ++ entry.1.render g ++ "\n"

end Grammar

namespace SymbolSet

def names? (g : Grammar) (s : SymbolSet) : Option (List String) := s.members.mapM g.name?

/-- The names in ascending order of their symbols, between braces. -/
def render? (g : Grammar) (s : SymbolSet) : Option String :=
  (s.names? g).map fun names => "\x7b" ++ ", ".intercalate names ++ "\x7d"

end SymbolSet
end ShiftReduce
