/-
What can come next: first sets, follow sets and lookaheads.

All of these are derived from the items that occur in an automaton and never from
its transitions.  A `Survey` holds the part of that work which every question
shares, namely the items themselves and the follow set of each symbol, so that
many questions about one automaton cost the common part once.

The follow sets are those of the items at hand: a symbol is followed by whatever
begins the rest of an item in which it stands before the dot, and by what follows
the left side of that item if the rest can vanish.  For the automaton of a
grammar, which has all items that matter, these are the follow sets of the
grammar.
-/
import ShiftReduce.Automaton.Basic

namespace ShiftReduce

namespace Item

/-- The terminals that can come at the dot, given the follow sets of left sides.
Behind rule 0 the input ends. -/
def firstWith (g : Grammar) (follow : List SymbolSet) (item : Item) : SymbolSet :=
  let rest := item.rest g
  if g.sequenceNullable rest then
    if item.left g = .accept then insert .endMarker (g.sequenceFirst rest)
    else g.sequenceFirst rest ∪ setAt follow (item.left g)
  else g.sequenceFirst rest

/-- The item with the nonterminal before its dot, if there is one. -/
def follower? (g : Grammar) (item : Item) : Option (SymbolId × Item) :=
  match item.previous? g with
  | some x => if g.isNonterminal x then some (x, item) else none
  | none => none

end Item

namespace Automaton

/-! ## The follow table -/

/-- The items that say something about a follow set, each with the nonterminal
before its dot. -/
def followers (g : Grammar) (a : Automaton) : List (SymbolId × Item) :=
  (a.items g).filterMap (Item.follower? g)

/-- What can come at the dot of an item follows the symbol before it. -/
def addFollow (g : Grammar) (follow : List SymbolSet) (follower : SymbolId × Item) :
    List SymbolSet :=
  follow.modify follower.1.index (· ∪ follower.2.firstWith g follow)

/-- For each symbol the terminals that follow it. -/
def followTable (g : Grammar) (a : Automaton) : List SymbolSet :=
  saturate (fun follow => (a.followers g).foldl (addFollow g) follow)
    (g.symbols.length * g.symbols.length + 1) (List.replicate g.symbols.length ∅)

end Automaton

/-- An automaton with what all questions about its items share. -/
structure Survey where
  grammar : Grammar
  automaton : Automaton
  /-- The items that occur, each of them once. -/
  items : List Item
  /-- For each symbol the terminals that follow it. -/
  follow : List SymbolSet

namespace Survey

/-- The survey for a follow table that is known already. -/
def withFollow (g : Grammar) (a : Automaton) (follow : List SymbolSet) : Survey :=
  { grammar := g, automaton := a, items := a.items g, follow }

def make (g : Grammar) (a : Automaton) : Survey := withFollow g a (a.followTable g)

/-- The terminals that follow a symbol; none for a symbol that the grammar does
not have. -/
def followOf (v : Survey) (x : SymbolId) : SymbolSet := setAt v.follow x

/-! ## The lookahead of a reduction -/

/-- One round of looking for nonterminals that end where a known one ends. -/
def addEnclosing (v : Survey) (known : SymbolSet) : SymbolSet :=
  v.items.foldl
    (fun known item =>
      if (item.previous? v.grammar).any known.contains &&
          v.grammar.sequenceNullable (item.rest v.grammar) &&
          item.left v.grammar != .accept
      then insert (item.left v.grammar) known
      else known)
    known

/-- The nonterminals, other than the accepting one, that can end where `left`
ends: itself, and the left side of an item whose rest can vanish behind one of
them. -/
def enclosing (v : Survey) (left : SymbolId) : SymbolSet :=
  saturate v.addEnclosing (v.grammar.symbols.length + 1) {left}

/-- The symbols that can come at the dot of an item once what precedes them has
vanished, each with its position in the rule. -/
def leading (v : Survey) (item : Item) : List (SymbolId × Nat) :=
  (leadingSymbols v.grammar.nullable (item.rest v.grammar)).zipIdx item.dot

/-- The trigger can come out of a nonterminal at the dot of the item, so that what
comes behind it is not to be seen from here. -/
def hidden (v : Survey) (trigger : SymbolId) (item : Item) : Bool :=
  (v.leading item).any fun entry =>
    v.grammar.isNonterminal entry.1 && (v.grammar.firstOf entry.1).contains trigger

/-- What can come behind the trigger where the item itself has the trigger at its
dot. -/
def behind (v : Survey) (trigger : SymbolId) (item : Item) : SymbolSet :=
  ((v.leading item).filter fun entry => v.grammar.isTerminal entry.1 && entry.1 == trigger).foldl
    (fun acc entry =>
      acc ∪ Item.firstWith v.grammar v.follow { item with dot := entry.2 + 1 })
    ∅

/-- The lookahead of a reduction to `left` on `trigger`: what can come behind the
trigger once `left` has been recognised.  The items in which `left`, or a
nonterminal that ends where it ends, stands before the dot tell that, unless the
trigger can come out of a nonterminal; then nothing is demanded.  Behind the end
of the input there is nothing to look at. -/
def reduceLookahead (v : Survey) (left trigger : SymbolId) : Lookahead :=
  if trigger = .endMarker then .any
  else
    let ending := v.enclosing left
    let after := v.items.filter fun item => (item.previous? v.grammar).any ending.contains
    if after.any (v.hidden trigger) then .any
    else .ofSet (after.foldl (fun acc item => acc ∪ v.behind trigger item) ∅)

end Survey
end ShiftReduce
