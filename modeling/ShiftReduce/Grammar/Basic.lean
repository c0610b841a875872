/-
Grammars.

A grammar is a table of symbols and a table of rules, together with what everything
built on it asks for again and again: the symbol under a name, the rules of a left
side, which symbols can derive the empty string, and with which terminals a symbol
can begin.  All of these are tables of their own, filled once.

Rule 0 is `$accept -> S` for the start symbol `S`.  The builder is what makes
sure of that and of the other conditions a grammar satisfies; of these a `Grammar`
itself only carries that its rules are filed under their left sides.  A lookup with a
handle from elsewhere is answered with `none`, or for the right side of a rule with
the empty one.
-/
import ShiftReduce.Symbol.Set
import ShiftReduce.Grammar.Error
import ShiftReduce.Saturate

namespace ShiftReduce

/-- One rule.  `bindings` has one entry for each symbol of the right side: the
name under which an action refers to it, or `none` if it does not.  A priority is
only ever compared and printed; its width is the concern of whoever reads it. -/
structure Rule where
  left : SymbolId
  right : List SymbolId
  priority : Int
  bindings : List (Option String)
  action : Option String
deriving DecidableEq

abbrev RuleId := Handle Rule

/-! ## Symbols that vanish, and symbols that begin

Both tables are least fixed points over the rules. -/

/-- The left side of `rule` joins the nullable symbols once its right side
consists of them. -/
def addNullable (known : SymbolSet) (rule : Rule) : SymbolSet :=
  if rule.right.all known.contains then insert rule.left known else known

/-- The symbols that derive the empty string. -/
def nullableSymbols (symbols : List Symbol) (rules : List Rule) : SymbolSet :=
  saturate (fun known => rules.foldl addNullable known) (symbols.length + 1) ∅

/-- The symbols of a sequence that can stand at its front once what precedes them
has vanished: the longest stretch of nullable symbols and the one after it. -/
def leadingSymbols (nullable : SymbolSet) : List SymbolId → List SymbolId
  | [] => []
  | x :: rest => x :: if nullable.contains x then leadingSymbols nullable rest else []

/-- All of them are symbols of the sequence. -/
theorem leadingSymbols_subset (nullable : SymbolSet) (xs : List SymbolId) :
    leadingSymbols nullable xs ⊆ xs := by
  induction xs with
  | nil => exact List.Subset.refl []
  | cons x rest ih =>
    rw [leadingSymbols]
    split
    · exact List.cons_subset_cons x ih
    · exact List.cons_subset_cons x (List.nil_subset rest)

/-- The entry of a table with one set for each symbol; the empty set past its end. -/
def setAt (table : List SymbolSet) (x : SymbolId) : SymbolSet := table[x.index]?.getD ∅

/-- The terminals a sequence can begin with, given those for single symbols. -/
def firstOfSequence (nullable : SymbolSet) (table : List SymbolSet) (xs : List SymbolId) :
    SymbolSet :=
  (leadingSymbols nullable xs).foldl (fun acc x => acc ∪ setAt table x) ∅

/-- The same, read off a table that may be too short: it is refused without an entry for a
symbol that can stand at the front. -/
def firstOfSequence? (nullable : SymbolSet) (table : List SymbolSet) (xs : List SymbolId) :
    Option SymbolSet :=
  (leadingSymbols nullable xs).foldlM (fun acc x => table[x.index]?.map (acc ∪ ·)) ∅

/-- What begins the right side of `rule` begins its left side. -/
def addFirst (nullable : SymbolSet) (table : List SymbolSet) (rule : Rule) : List SymbolSet :=
  table.modify rule.left.index (· ∪ firstOfSequence nullable table rule.right)

/-- A terminal begins with itself, a nonterminal with nothing known yet. -/
def initialFirst (symbols : List Symbol) : List SymbolSet :=
  symbols.mapIdx fun i s => if s.isTerminal then {Handle.ofNat i} else ∅

/-- For each symbol the terminals it can begin with. -/
def firstTable (symbols : List Symbol) (rules : List Rule) (nullable : SymbolSet) :
    List SymbolSet :=
  saturate (fun table => rules.foldl (addFirst nullable) table)
    (symbols.length * symbols.length + 1) (initialFirst symbols)

/-! ## Rules under their left sides -/

/-- Files a rule, given with its place, at the end of the row of its left side.  Without
such a row it is refused. -/
def fileRule (rows : List (List RuleId)) (entry : Rule × Nat) :
    Except GrammarError (List (List RuleId)) :=
  match rows[entry.1.left.index]? with
  | some row => .ok (rows.set entry.1.left.index (row ++ [Handle.ofNat entry.2]))
  | none => .error (.unknownSymbol entry.1.left.index)

/-- One row for each of `count` symbols, with the rules of which it is the left side. -/
def fileRules (count : Nat) (rules : List Rule) : Except GrammarError (List (List RuleId)) :=
  rules.zipIdx.foldlM fileRule (List.replicate count [])

/-! ## The grammar -/

structure Grammar where
  symbols : List Symbol
  /-- The symbol under each name.  Of two entries for a name the first one counts. -/
  names : List (String × SymbolId)
  rules : List Rule
  /-- For each symbol the rules of which it is the left side. -/
  rulesByLeft : List (List RuleId)
  filed : fileRules symbols.length rules = .ok rulesByLeft
  /-- The symbols that derive the empty string. -/
  nullable : SymbolSet
  /-- For each symbol the terminals it can begin with. -/
  first : List SymbolSet
deriving DecidableEq

namespace Grammar

/-! ### Looking things up -/

def symbol? (g : Grammar) (x : SymbolId) : Option Symbol := x.get? g.symbols

def name? (g : Grammar) (x : SymbolId) : Option String := (g.symbol? x).map Symbol.name

/-- The name of a symbol that is known to belong to the grammar, such as one of a
rule.  Elsewhere `name?` is the way to ask. -/
def nameOf (g : Grammar) (x : SymbolId) : String := (g.name? x).getD ""

/-- The symbol with this name. -/
def symbolNamed? (g : Grammar) (name : String) : Option SymbolId := g.names.lookup name

def isTerminal (g : Grammar) (x : SymbolId) : Bool := (g.symbol? x).any Symbol.isTerminal

def isNonterminal (g : Grammar) (x : SymbolId) : Bool := (g.symbol? x).any Symbol.isNonterminal

def rule? (g : Grammar) (r : RuleId) : Option Rule := r.get? g.rules

/-- The right side of a rule; empty if the grammar has no such rule. -/
def rightOf (g : Grammar) (r : RuleId) : List SymbolId := ((g.rule? r).map Rule.right).getD []

/-- The left side of a rule; the accepting symbol if the grammar has no such rule,
so that nothing is ever reduced by it. -/
def leftOf (g : Grammar) (r : RuleId) : SymbolId := ((g.rule? r).map Rule.left).getD .accept

def priorityOf (g : Grammar) (r : RuleId) : Int := ((g.rule? r).map Rule.priority).getD 0

/-- The rules with this left side, in order; none for a symbol that the grammar does not
have. -/
def rulesFor (g : Grammar) (x : SymbolId) : List RuleId := g.rulesByLeft[x.index]?.getD []

/-! ### Enumerations -/

/-- All symbols, in order. -/
def symbolIds (g : Grammar) : List SymbolId := (List.range g.symbols.length).map Handle.ofNat

/-- Declared terminals, in order.  The end marker is not one of them. -/
def terminals (g : Grammar) : List SymbolId :=
  g.symbolIds.filter fun x => (g.symbol? x).any fun s => s.kind == .terminal

def nonterminals (g : Grammar) : List SymbolId := g.symbolIds.filter g.isNonterminal

/-- Declared terminals in order, and after them the end marker. -/
def inputSymbols (g : Grammar) : List SymbolId := g.terminals ++ [.endMarker]

/-- Every symbol that can be read from an input: declared terminals and the end
marker. -/
def terminalSet (g : Grammar) : SymbolSet := .ofList g.inputSymbols

/-- The symbol the grammar was built for: what rule 0 derives. -/
def start? (g : Grammar) : Option SymbolId := g.rules.head?.bind fun rule => rule.right.head?

/-! ### First sets -/

/-- The terminals a symbol can begin with. -/
def firstOf (g : Grammar) (x : SymbolId) : SymbolSet := setAt g.first x

def isNullable (g : Grammar) (x : SymbolId) : Bool := g.nullable.contains x

/-- The terminals a sequence of symbols can begin with. -/
def sequenceFirst (g : Grammar) (xs : List SymbolId) : SymbolSet :=
  firstOfSequence g.nullable g.first xs

/-- Whether all of a sequence can vanish. -/
def sequenceNullable (g : Grammar) (xs : List SymbolId) : Bool := xs.all g.isNullable

/-- First set and nullability of a sequence that may hold handles from elsewhere.
It is refused if a symbol that the grammar does not have could stand at its
front; a foreign symbol behind one that cannot vanish is never looked at. -/
def sequenceFirst? (g : Grammar) (xs : List SymbolId) : Option (SymbolSet × Bool) :=
  (firstOfSequence? g.nullable g.first xs).map fun set => (set, g.sequenceNullable xs)

end Grammar
end ShiftReduce
