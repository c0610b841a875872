/-
Entries of the action table.

An entry says what the parser does in a state with an input symbol ahead.  Where
that depends on the input behind the symbol, the entry is a table of its own,
decided by the next symbol; its wildcard applies to a symbol without an entry.

`Action.insert` puts an action into a row under a column and a lookahead, which is
given as the names that each position allows.  It never takes anything away: an
entry that is already there stays and keeps its place as the wildcard of a new
table, and an action that finds its place taken is not put anywhere.
-/
import ShiftReduce.Table.Row

namespace ShiftReduce

inductive Action where
  | accept
  | shift (next : Nat)
  /-- Reduce by a rule, given with its left side and the names its right side is
  bound to. -/
  | reduce (rule : Nat) (left : String) (symbols : List (Option String))
  | lookahead (table : List (String × Action)) (wildcard : Option Action)

namespace Action

/-- An entry, or the lack of one, as a table that depends on the next symbol:
what is there already is the fallback. -/
def asTable : Option Action → Row Action × Option Action
  | none => ([], none)
  | some (lookahead table wildcard) => (table, wildcard)
  | some plain => ([], some plain)

/-- Puts an action into a row that has no lookahead left to distinguish it. -/
def insertPlain (action : Action) (column : String) (row : Row Action) : Row Action :=
  match row.find? column with
  | none => row.put column action
  | some (lookahead table none) => row.put column (lookahead table (some action))
  | some _ => row

/-- Puts an action into a row under a column and a lookahead. -/
def insert (action : Action) : List (List String) → String → Row Action → Row Action
  | [], column, row => insertPlain action column row
  | names :: rest, column, row =>
      let (table, wildcard) := asTable (row.find? column)
      let table := names.foldl (fun table name => insert action rest name table) table
      row.put column (lookahead table wildcard)

end Action
end ShiftReduce
