/-
Looking things up where a missing entry is refused.

The look-ups in `ShiftReduce.Grammar.Basic` and the questions in `ShiftReduce.Item` answer for every
handle, by a default if the grammar has no such entry.  A generator does without defaults: here each
access to a table, and each cut behind a dot, is one that may be refused, and a function that makes
such an access is refused with it.

For what belongs to a well-formed grammar each of these functions answers, and as the function without
checks does: `ShiftReduce.Proofs.Checked` has one lemma for each, named after it with `_eq_ok`.
-/
import ShiftReduce.Item.Set

namespace ShiftReduce
namespace Checked

/-! ## Tables of a grammar -/

def rule (g : Grammar) (r : RuleId) : Except Failure Rule := Failure.orForeign (g.rule? r)

def symbol (g : Grammar) (x : SymbolId) : Except Failure Symbol := Failure.orForeign (g.symbol? x)

def name (g : Grammar) (x : SymbolId) : Except Failure String := do return (← symbol g x).name

def isTerminal (g : Grammar) (x : SymbolId) : Except Failure Bool := do
  return (← symbol g x).isTerminal

def isNonterminal (g : Grammar) (x : SymbolId) : Except Failure Bool := do
  return (← symbol g x).isNonterminal

/-- The terminals a symbol can begin with. -/
def firstOf (g : Grammar) (x : SymbolId) : Except Failure SymbolSet :=
  Failure.orForeign g.first[x.index]?

/-- The terminals a sequence can begin with, and whether all of it can vanish. -/
def sequenceFirst (g : Grammar) (xs : List SymbolId) : Except Failure (SymbolSet × Bool) :=
  Failure.orForeign (g.sequenceFirst? xs)

/-! ## Items -/

def left (g : Grammar) (item : Item) : Except Failure SymbolId := do
  return (← rule g item.rule).left

/-- What stands behind the dot.  There is no cut behind a dot outside of the rule. -/
def rest (g : Grammar) (item : Item) : Except Failure (List SymbolId) := do
  let r ← rule g item.rule
  if item.dot ≤ r.right.length then return r.right.drop item.dot else .error .foreignHandle

/-- The symbol right behind the dot. -/
def next (g : Grammar) (item : Item) : Except Failure (Option SymbolId) := do
  return (← rule g item.rule).right[item.dot]?

/-- The symbol right before the dot.  The rule is not looked at where the dot is in front. -/
def previous (g : Grammar) (item : Item) : Except Failure (Option SymbolId) :=
  match item.dot with
  | 0 => .ok none
  | before + 1 => do return (← rule g item.rule).right[before]?

def atEnd (g : Grammar) (item : Item) : Except Failure Bool := do
  return item.dot == (← rule g item.rule).right.length

/-- The dot one symbol further, unless it is at the end. -/
def advance (g : Grammar) (item : Item) : Except Failure (Option Item) := do
  if ← atEnd g item then return none else return some { item with dot := item.dot + 1 }

/-- A complete item reduces, except for that of rule 0. -/
def reduces (g : Grammar) (item : Item) : Except Failure Bool :=
  if item.rule.index = 0 then .ok false else atEnd g item

/-! ## Closure -/

/-- What an item calls for. -/
def introduced (g : Grammar) (item : Item) : Except Failure (List Item) := do
  match ← next g item with
  | some x =>
      if ← isNonterminal g x then return (g.rulesFor x).map fun r => ⟨r, 0⟩ else return []
  | none => return []

/-- Visits the items from a position on and adds what they call for at the end. -/
def expand (g : Grammar) : Nat → Nat → ItemSet → Except Failure ItemSet
  | 0, _, s => .ok s
  | bound + 1, position, s =>
      match s.items[position]? with
      | some item => do
          let more ← introduced g item
          expand g bound (position + 1) (s.addAll more)
      | none => .ok s

/-- The closure, with everything that was there before as its kernel. -/
def close (g : Grammar) (s : ItemSet) : Except Failure ItemSet :=
  expand g (s.size + g.rules.length) 0 { s with kernelSize := s.size }

/-! ## Written form -/

/-- One symbol of a right side as it is written. -/
def renderBound (g : Grammar) (entry : SymbolId × Option String) : Except Failure String := do
  let text ← name g entry.1
  return " " ++ text ++ Rule.renderBinding entry.2

/-- A rule as it is written, with its bindings and its priority. -/
def renderRule (g : Grammar) (r : Rule) : Except Failure String := do
  let left ← name g r.left
  let right ← (r.right.zip r.bindings).mapM (renderBound g)
  return left ++ " ->" ++ (if r.right.isEmpty then " ε" else "") ++ String.join right ++
    (if r.priority = 0 then "" else " @" ++ toString r.priority)

/-- One numbered line for each rule. -/
def renderGrammar (g : Grammar) : Except Failure String := do
  let lines ← g.rules.zipIdx.mapM fun entry => do
    let text ← renderRule g entry.1
    return toString entry.2 ++ ": " ++ text ++ "\n"
  return String.join lines

/-- An item as it is written, with the priority of its rule. -/
def render (g : Grammar) (item : Item) : Except Failure String := do
  let r ← rule g item.rule
  let left ← name g r.left
  let names ← r.right.mapM (name g)
  let right := names.map fun text => " " ++ text
  return left ++ " ->" ++ String.join (right.take item.dot) ++ " •" ++
    String.join (right.drop item.dot) ++
    (if r.priority = 0 then "" else " (prio: " ++ toString r.priority ++ ")")

/-- One line for each item; a plus marks those outside the kernel. -/
def renderItems (g : Grammar) (s : ItemSet) : Except Failure String := do
  let lines ← s.items.zipIdx.mapM fun entry => do
    let text ← render g entry.1
    return (if s.isKernel entry.2 then " " else "+") ++ " " ++ text ++ "\n"
  return String.join lines

end Checked
end ShiftReduce
