/-
Building a grammar step by step.

A builder holds the symbols declared so far, a table that leads from their names to
them, and the rules given so far.  A declaration is checked at once, a rule only when
the grammar is built, because its handles may point at symbols that are declared
later.  `build` goes through the conditions in a fixed order and reports the first one
that fails: the start symbol, then each rule from its left side over its right side to
its bindings, then the nonterminals without rules.

What passed is turned into the tables of the grammar.  A symbol that the tables have
no place for would be refused there once more; the checks leave no such symbol.
-/
import ShiftReduce.Grammar.Basic
import ShiftReduce.Grammar.Error

namespace ShiftReduce

/-- A rule as it is given to a builder.  Bindings are pairs of a position on the
right side and a name; of two for one position the later one counts. -/
structure RuleSpec where
  left : SymbolId
  right : List SymbolId
  priority : Int := 0
  bindings : List (Nat × String) := []
  action : Option String := none
deriving DecidableEq

structure Builder where
  symbols : List Symbol
  /-- The symbol under each name.  Of two entries for a name the first one counts. -/
  names : List (String × SymbolId)
  rules : List RuleSpec
deriving DecidableEq

namespace Builder

/-- The builder with one more symbol, and the handle of that symbol. -/
def push (b : Builder) (s : Symbol) : SymbolId × Builder :=
  let (id, symbols) := Handle.push b.symbols s
  (id, { b with symbols, names := (s.name, id) :: b.names })

/-- Nothing but the two symbols that every grammar has. -/
def empty : Builder :=
  let blank : Builder := { symbols := [], names := [], rules := [] }
  ((blank.push ⟨Symbol.endName, .endMarker⟩).2.push ⟨Symbol.acceptName, .nonterminal⟩).2

/-- The declared symbol with this name. -/
def find? (b : Builder) (name : String) : Option SymbolId := b.names.lookup name

/-- The symbol of a handle. -/
def symbol (b : Builder) (x : SymbolId) : Except GrammarError Symbol :=
  match x.get? b.symbols with
  | some s => .ok s
  | none => .error (.unknownSymbol x.index)

/-- Declares a name with a kind, or finds it if it is declared with that kind. -/
def declare (b : Builder) (name : String) (kind : SymbolKind) :
    Except GrammarError (SymbolId × Builder) :=
  if Symbol.isReserved name then .error (.reservedName name)
  else
    match b.find? name with
    | some id => do
        let s ← b.symbol id
        if s.kind = kind then return (id, b) else .error (.kindMismatch name)
    | none => .ok (b.push ⟨name, kind⟩)

def terminal (b : Builder) (name : String) : Except GrammarError (SymbolId × Builder) :=
  b.declare name .terminal

def nonterminal (b : Builder) (name : String) : Except GrammarError (SymbolId × Builder) :=
  b.declare name .nonterminal

/-- Adds a rule.  It is checked by `build`. -/
def rule (b : Builder) (spec : RuleSpec) : Builder := { b with rules := b.rules ++ [spec] }

/-! ## The checks of `build` -/

/-- A symbol that may be derived from: a nonterminal other than the accepting
symbol. -/
def checkLeft (b : Builder) (x : SymbolId) : Except GrammarError Unit := do
  let s ← b.symbol x
  if s.isNonterminal && x != .accept then .ok () else .error (.notNonterminal s.name)

/-- A symbol that may be derived: any but the two that are always there. -/
def checkRight (b : Builder) (x : SymbolId) : Except GrammarError Unit := do
  let s ← b.symbol x
  if s.isEndMarker || s.name == Symbol.acceptName then .error (.reservedSymbol s.name) else .ok ()

/-- The bindings of a rule spread over its right side. -/
def spreadBindings (length : Nat) (bindings : List (Nat × String)) :
    Except GrammarError (List (Option String)) :=
  bindings.foldlM
    (fun row binding =>
      if binding.1 < length then .ok (row.set binding.1 (some binding.2))
      else .error (.bindingOutOfRange binding.2 binding.1 length))
    (List.replicate length none)

def checkRule (b : Builder) (spec : RuleSpec) : Except GrammarError Rule := do
  b.checkLeft spec.left
  spec.right.forM b.checkRight
  let bindings ← spreadBindings spec.right.length spec.bindings
  return { left := spec.left, right := spec.right, priority := spec.priority, bindings,
           action := spec.action }

/-- Rule 0 of the grammar for `start`. -/
def acceptRule (start : SymbolId) : Rule :=
  { left := .accept, right := [start], priority := 0, bindings := [none], action := none }

/-- The first nonterminal without rules, given the rules of each symbol. -/
def undefined? (b : Builder) (rulesByLeft : List (List RuleId)) : Option Symbol :=
  (b.symbols.zipIdx.find? fun entry =>
    entry.1.isNonterminal && rulesByLeft[entry.2]? == some []).map Prod.fst

/-! ## The tables of the grammar -/

/-- Whether all of a sequence is known to vanish.  It is looked at up to the first symbol
that is not. -/
def vanishes (b : Builder) (known : SymbolSet) : List SymbolId → Except GrammarError Bool
  | [] => .ok true
  | x :: rest => do
      let s ← b.symbol x
      if s.isNonterminal && known.contains x then b.vanishes known rest else return false

/-- The left side of `rule` joins the nullable symbols once its right side consists of
them. -/
def addVanishing (b : Builder) (known : SymbolSet) (rule : Rule) :
    Except GrammarError SymbolSet := do
  if ← b.vanishes known rule.right then return insert rule.left known else return known

/-- The symbols that derive the empty string. -/
def vanishing (b : Builder) (rules : List Rule) : Except GrammarError SymbolSet :=
  saturateM (fun known => rules.foldlM b.addVanishing known) (b.symbols.length + 1) ∅

/-- What begins the right side of `rule` begins its left side. -/
def addBeginnings (nullable : SymbolSet) (table : List SymbolSet) (rule : Rule) :
    Except GrammarError (List SymbolSet) :=
  match firstOfSequence? nullable table rule.right, table[rule.left.index]? with
  | some begins, some own => .ok (table.set rule.left.index (own ∪ begins))
  | _, _ => .error (.unknownSymbol rule.left.index)

/-- For each symbol the terminals it can begin with. -/
def beginnings (b : Builder) (rules : List Rule) (nullable : SymbolSet) :
    Except GrammarError (List SymbolSet) :=
  saturateM (fun table => rules.foldlM (addBeginnings nullable) table)
    (b.symbols.length * b.symbols.length + 1) (initialFirst b.symbols)

/-- The grammar with the declared symbols and some rules. -/
def tabulate (b : Builder) (rules : List Rule) : Except GrammarError Grammar :=
  match filed : fileRules b.symbols.length rules with
  | .error e => .error e
  | .ok rulesByLeft =>
      match b.undefined? rulesByLeft with
      | some s => .error (.noRules s.name)
      | none => do
          let nullable ← b.vanishing rules
          let first ← b.beginnings rules nullable
          return { symbols := b.symbols, names := b.names, rules, rulesByLeft, filed, nullable,
                   first }

/-- Checks everything and makes the grammar for a start symbol. -/
def build (b : Builder) (start : SymbolId) : Except GrammarError Grammar := do
  b.checkLeft start
  let rules ← b.rules.mapM b.checkRule
  b.tabulate (acceptRule start :: rules)

end Builder
end ShiftReduce
