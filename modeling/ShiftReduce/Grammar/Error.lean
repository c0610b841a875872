/-
What can be wrong with a grammar.

Each constructor is one cause and carries what its message needs.  The messages
themselves are in one function, so a theorem about failure speaks of causes and
never of texts.
-/
namespace ShiftReduce

/-- How a text of definitions can break its own rules. -/
inductive Malformation where
  /-- A delimiter or a bar stands where a definition should begin. -/
  | nameMissing
  /-- The name of a definition is followed by something else than `::=`. -/
  | delimiterMissing
  /-- A delimiter stands inside an alternative. -/
  | strayDelimiter
  /-- What follows `@` is not a 32-bit integer. -/
  | priorityNotInteger
  /-- More symbols follow a priority. -/
  | priorityNotLast
  /-- There is not one definition. -/
  | noDefinitions
deriving DecidableEq

namespace Malformation

def message : Malformation → String
  | nameMissing => "definition must start with a name"
  | delimiterMissing => "didn't see ::= delimiter"
  | strayDelimiter => "unexpected ::= inside an alternative"
  | priorityNotInteger => "priority must be an integer"
  | priorityNotLast => "priority must end an alternative"
  | noDefinitions => "grammar has no definitions"

end Malformation

inductive GrammarError where
  /-- A name is declared both as a terminal and as a nonterminal. -/
  | kindMismatch (name : String)
  /-- A declaration uses a name that every grammar has already. -/
  | reservedName (name : String)
  /-- A symbol handle points past the symbols declared so far. -/
  | unknownSymbol (index : Nat)
  /-- The start symbol or a left side is no declared nonterminal. -/
  | notNonterminal (name : String)
  /-- The end marker or the accepting symbol is on a right side. -/
  | reservedSymbol (name : String)
  /-- A declared nonterminal is the left side of no rule. -/
  | noRules (name : String)
  /-- A binding names a position that its rule does not have. -/
  | bindingOutOfRange (name : String) (position length : Nat)
  /-- A text of definitions breaks a rule of its form. -/
  | malformed (cause : Malformation)
  /-- A text of definitions stops in the middle of a definition. -/
  | unexpectedEnd
deriving DecidableEq

namespace GrammarError

def message : GrammarError → String
  | kindMismatch name => "symbol `" ++ name ++ "` is already declared with a different kind"
  | reservedName name => "symbol name `" ++ name ++ "` is reserved"
  | unknownSymbol index => "symbol " ++ toString index ++ " does not belong to this grammar"
  | notNonterminal name =>
      "left side of a rule must be a nonterminal, found `" ++ name ++ "`"
  | reservedSymbol name => "`" ++ name ++ "` may not appear on the right side of a rule"
  | noRules name => "nonterminal `" ++ name ++ "` has no rules"
  | bindingOutOfRange name position length =>
      "binding `" ++ name ++ "` refers to position " ++ toString position ++
        " of a rule with " ++ toString length ++ " symbols"
  | malformed cause => "malformed grammar: " ++ cause.message
  | unexpectedEnd => "unexpected end of grammar text"

end GrammarError
end ShiftReduce
