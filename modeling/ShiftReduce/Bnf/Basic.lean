/-
Definitions in the form a grammar text gives them.

A definition names a symbol and lists its alternatives; an alternative lists
occurrences of symbols, some of them bound to a name for the use of an action,
and has a priority.  Nothing here says yet which names are terminals.
-/
namespace ShiftReduce
namespace Bnf

/-- A symbol in an alternative, with the name its value is bound to. -/
structure Occurrence where
  name : String
  binding : Option String
deriving DecidableEq

structure Alternative where
  symbols : List Occurrence
  priority : Int
deriving DecidableEq

structure Definition where
  name : String
  alternatives : List Alternative
deriving DecidableEq

end Bnf
end ShiftReduce
