/-
Surveys where nothing is looked up in vain.

`survey` makes the follow table of an automaton once, and the questions below are put to it.  They go
the way of `ShiftReduce.Automaton.Survey` with accesses that can be refused, and the state, the item
or the moved item that a question is about may be missing as well.

The lookahead of a reduction is found in one pass over the items, which keeps what it has seen behind
the trigger and whether the trigger was hidden somewhere.
-/
import ShiftReduce.Automaton.Source
import ShiftReduce.Automaton.Survey

namespace ShiftReduce
namespace Checked

/-! ## The follow table -/

/-- The terminals that can come at the dot, given the follow sets of left sides. -/
def firstWith (g : Grammar) (follow : List SymbolSet) (item : Item) : Except Failure SymbolSet := do
  let left ← left g item
  let (set, vanishes) ← sequenceFirst g (← rest g item)
  if vanishes then
    if left = .accept then return insert .endMarker set else return set ∪ setAt follow left
  else return set

/-- The item with the nonterminal before its dot, if there is one. -/
def follower (g : Grammar) (item : Item) : Except Failure (Option (SymbolId × Item)) := do
  match ← previous g item with
  | some x => if ← isNonterminal g x then return some (x, item) else return none
  | none => return none

/-- What can come at the dot of an item follows the symbol before it. -/
def addFollow (g : Grammar) (follow : List SymbolSet) (follower : SymbolId × Item) :
    Except Failure (List SymbolSet) := do
  let set ← firstWith g follow follower.2
  let own ← Failure.orForeign follow[follower.1.index]?
  return follow.set follower.1.index (own ∪ set)

/-- The items that say something about a follow set, each with the nonterminal before its dot. -/
def followers (g : Grammar) (items : List Item) : Except Failure (List (SymbolId × Item)) := do
  return (← items.mapM (follower g)).filterMap id

/-- For each symbol the terminals that follow it, as far as some items tell. -/
def followTable (g : Grammar) (items : List Item) : Except Failure (List SymbolSet) := do
  let followers ← followers g items
  saturateM (fun follow => followers.foldlM (addFollow g) follow)
    (g.symbols.length * g.symbols.length + 1) (List.replicate g.symbols.length ∅)

def survey (g : Grammar) (a : Automaton) : Except Failure Survey := do
  return Survey.withFollow g a (← followTable g (a.items g))

/-! ## The lookahead of a reduction -/

/-- The left side of an item joins the nonterminals that end where a known one ends, if one of them
stands before the dot and the rest can vanish. -/
def addEnclosing (v : Survey) (known : SymbolSet) (item : Item) : Except Failure SymbolSet := do
  if (← previous v.grammar item).any known.contains then
    let left ← left v.grammar item
    if v.grammar.sequenceNullable (← rest v.grammar item) && left != .accept then
      return insert left known
    else return known
  else return known

/-- The nonterminals, other than the accepting one, that can end where `left` ends. -/
def enclosing (v : Survey) (left : SymbolId) : Except Failure SymbolSet :=
  saturateM (fun known => v.items.foldlM (addEnclosing v) known)
    (v.grammar.symbols.length + 1) {left}

/-- What is seen in one symbol that can come at the dot of an item: behind the trigger, what can come
there; in a nonterminal that the trigger can come out of, that it is hidden. -/
def lookAt (v : Survey) (trigger : SymbolId) (item : Item) (seen : Bool × SymbolSet)
    (entry : SymbolId × Nat) : Except Failure (Bool × SymbolSet) := do
  if ← isTerminal v.grammar entry.1 then
    if entry.1 = trigger then
      let set ← firstWith v.grammar v.follow { item with dot := entry.2 + 1 }
      return (seen.1, seen.2 ∪ set)
    else return seen
  else
    let set ← firstOf v.grammar entry.1
    return (seen.1 || set.contains trigger, seen.2)

/-- What is seen at the dot of an item, if one of the symbols stands before it. -/
def lookBehind (v : Survey) (ending : SymbolSet) (trigger : SymbolId) (seen : Bool × SymbolSet)
    (item : Item) : Except Failure (Bool × SymbolSet) := do
  if (← previous v.grammar item).any ending.contains then
    let leading := leadingSymbols v.grammar.nullable (← rest v.grammar item)
    let (hidden, set) ← (leading.zipIdx item.dot).foldlM (lookAt v trigger item) (false, ∅)
    return (seen.1 || hidden, seen.2 ∪ set)
  else return seen

/-- The lookahead of a reduction to `left` on `trigger`. -/
def reduceLookahead (v : Survey) (left trigger : SymbolId) : Except Failure Lookahead := do
  if trigger = .endMarker then return .any
  else
    let ending ← enclosing v left
    let (hidden, set) ← v.items.foldlM (lookBehind v ending trigger) (false, ∅)
    if hidden then return .any else return .ofSet set

end Checked

/-! ## Questions -/

namespace Survey

/-- The terminals that can come at the dot of the item at a site. -/
def firstSet (v : Survey) (site : Site) : Except Failure SymbolSet := do
  Checked.firstWith v.grammar v.follow (← v.automaton.item site)

/-- The terminals that can come behind the symbol at the dot of the item at a
site. -/
def followSet (v : Survey) (site : Site) : Except Failure SymbolSet := do
  match ← v.automaton.followSource v.grammar site with
  | .ofSymbol x => return v.followOf x
  | .atSite site => v.firstSet site

/-- The lookahead of a shift: what can come behind the shifted symbol. -/
def shiftLookahead (v : Survey) (origin : Site) : Except Failure Lookahead := do
  let site ← v.automaton.advancedSite v.grammar origin
  return .ofSet (← v.firstSet site)

/-- The lookahead that the origin and the symbol of a transition call for; none for a goto or an
accept, which carries none. -/
def lookaheadOf (v : Survey) (t : Transition) : Except Failure (Option Lookahead) :=
  match t.move with
  | .shift _ _ => do return some (← v.shiftLookahead t.origin)
  | .reduce _ => do
      let left ← Checked.left v.grammar (← v.automaton.item t.origin)
      return some (← Checked.reduceLookahead v left t.symbol)
  | .goto _ | .accept => .ok none

/-- The priority of the rule that a transition stems from. -/
def priority (v : Survey) (t : Transition) : Except Failure Int := do
  let r ← Checked.rule v.grammar (← v.automaton.item t.origin).rule
  return r.priority

end Survey
end ShiftReduce
