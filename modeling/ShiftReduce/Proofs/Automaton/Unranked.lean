/-
What does not look at priorities.

`Grammar.unranked` forgets the priorities of a grammar.  Nothing about symbols, items, item
sets, the automaton or its follow sets changes with them, and the lemmas here say so, one
for each function, in the order in which the functions use each other.  Grammars that differ
in their priorities are the same once these are forgotten, so what is said here of one
grammar also compares two: `SameButPriorities.unranked_eq`.
-/
import ShiftReduce.Automaton.Construction
import ShiftReduce.Checked.Survey
import ShiftReduce.Table.Basic
import ShiftReduce.Proofs.Grammar.WellFormed

namespace ShiftReduce

/-- The rule with its priority forgotten. -/
def Rule.unranked (rule : Rule) : Rule := { rule with priority := 0 }

/-! ## Grammars -/

namespace Grammar

theorem fileRules_unranked (count : Nat) (rules : List Rule) :
    fileRules count (rules.map Rule.unranked) = fileRules count rules :=
  fileRules_map (f := Rule.unranked) (fun _ => rfl) count rules

/-- The grammar with its priorities forgotten. -/
def unranked (g : Grammar) : Grammar :=
  { g with
    rules := g.rules.map Rule.unranked
    filed := (fileRules_unranked _ _).trans g.filed }

/-- The two grammars have the same symbols, and rules that differ in their priorities at
most. -/
structure SameButPriorities (g h : Grammar) : Prop where
  symbols : h.symbols = g.symbols
  rules : h.rules.map Rule.unranked = g.rules.map Rule.unranked

theorem nullableSymbols_unranked (symbols : List Symbol) (rules : List Rule) :
    nullableSymbols symbols (rules.map Rule.unranked) = nullableSymbols symbols rules := by
  simp only [nullableSymbols, List.foldl_map]
  rfl

theorem firstTable_unranked (symbols : List Symbol) (rules : List Rule) (nullable : SymbolSet) :
    firstTable symbols (rules.map Rule.unranked) nullable = firstTable symbols rules nullable := by
  simp only [firstTable, List.foldl_map]
  rfl

/-- Without priorities a well-formed grammar is known by its symbols and rules. -/
theorem SameButPriorities.unranked_eq {g h : Grammar} (same : SameButPriorities g h)
    (wf : g.WellFormed) (wf' : h.WellFormed) : h.unranked = g.unranked := by
  have hnames : h.names = g.names := by rw [wf.names_eq, wf'.names_eq, same.symbols]
  have hnullable : h.nullable = g.nullable := by
    rw [wf.nullable_eq, wf'.nullable_eq, ← nullableSymbols_unranked, same.rules, same.symbols,
      nullableSymbols_unranked]
  have hfirst : h.first = g.first := by
    rw [wf.first_eq, wf'.first_eq, ← firstTable_unranked, same.rules, same.symbols, hnullable,
      firstTable_unranked]
  have hfiled : h.rulesByLeft = g.rulesByLeft := by
    have e : fileRules h.symbols.length (h.rules.map Rule.unranked) = .ok h.rulesByLeft :=
      (fileRules_unranked _ _).trans h.filed
    rw [same.rules, same.symbols, fileRules_unranked, g.filed] at e
    exact (Except.ok.inj e).symm
  simp only [unranked, same.symbols, same.rules, hnames, hnullable, hfirst, hfiled]

variable (g : Grammar)

theorem symbols_unranked : g.unranked.symbols = g.symbols := rfl

theorem length_rules_unranked : g.unranked.rules.length = g.rules.length := List.length_map _

theorem rule?_unranked (r : RuleId) : g.unranked.rule? r = (g.rule? r).map Rule.unranked :=
  List.getElem?_map

@[simp] theorem isTerminal_unranked : g.unranked.isTerminal = g.isTerminal := rfl

@[simp] theorem isNonterminal_unranked : g.unranked.isNonterminal = g.isNonterminal := rfl

@[simp] theorem name?_unranked : g.unranked.name? = g.name? := rfl

@[simp] theorem nameOf_unranked : g.unranked.nameOf = g.nameOf := rfl

@[simp] theorem inputSymbols_unranked : g.unranked.inputSymbols = g.inputSymbols := rfl

@[simp] theorem sequenceFirst_unranked : g.unranked.sequenceFirst = g.sequenceFirst := rfl

@[simp] theorem sequenceNullable_unranked : g.unranked.sequenceNullable = g.sequenceNullable := rfl

@[simp] theorem rightOf_unranked : g.unranked.rightOf = g.rightOf := by
  funext r
  rw [rightOf, rule?_unranked, Option.map_map]
  rfl

@[simp] theorem leftOf_unranked : g.unranked.leftOf = g.leftOf := by
  funext r
  rw [leftOf, rule?_unranked, Option.map_map]
  rfl

@[simp] theorem bindingsOf_unranked : g.unranked.bindingsOf = g.bindingsOf := by
  funext r
  rw [bindingsOf, rule?_unranked, Option.map_map]
  rfl

@[simp] theorem rulesFor_unranked : g.unranked.rulesFor = g.rulesFor := rfl

end Grammar

/-! ## Items -/

namespace Item

variable (g : Grammar)

@[simp] theorem left_unranked : left g.unranked = left g := by
  funext item
  rw [left, left, Grammar.leftOf_unranked]

@[simp] theorem rest_unranked : rest g.unranked = rest g := by
  funext item
  rw [rest, rest, Grammar.rightOf_unranked]

@[simp] theorem next?_unranked : next? g.unranked = next? g := by
  funext item
  rw [next?, next?, Grammar.rightOf_unranked]

@[simp] theorem previous?_unranked : previous? g.unranked = previous? g := by
  funext item
  unfold previous?
  rw [Grammar.rightOf_unranked]

@[simp] theorem atEnd_unranked : atEnd g.unranked = atEnd g := by
  funext item
  rw [atEnd, atEnd, Grammar.rightOf_unranked]

@[simp] theorem advance?_unranked : advance? g.unranked = advance? g := by
  funext item
  rw [advance?, advance?, atEnd_unranked]

@[simp] theorem reduces_unranked : reduces g.unranked = reduces g := by
  funext item
  rw [reduces, reduces, atEnd_unranked]

@[simp] theorem firstWith_unranked : firstWith g.unranked = firstWith g := by
  funext follow item
  simp only [firstWith, rest_unranked, left_unranked, Grammar.sequenceNullable_unranked,
    Grammar.sequenceFirst_unranked]

end Item

@[simp] theorem Item.follower?_unranked (g : Grammar) :
    Item.follower? g.unranked = Item.follower? g := by
  funext item
  unfold follower?
  rw [previous?_unranked, Grammar.isNonterminal_unranked]

@[simp] theorem Grammar.items_unranked (g : Grammar) : g.unranked.items = g.items := by
  simp only [items, unranked, List.zipIdx_map, List.flatMap_map]
  rfl

namespace ItemSet

variable (g : Grammar)

@[simp] theorem introduced_unranked : introduced g.unranked = introduced g := by
  funext item
  simp only [introduced, Item.next?_unranked]
  rfl

@[simp] theorem expand_unranked (bound position : Nat) (s : ItemSet) :
    expand g.unranked bound position s = expand g bound position s := by
  induction bound generalizing position s with
  | zero => rfl
  | succ bound ih =>
    unfold expand
    simp only [introduced_unranked, ih]

@[simp] theorem close_unranked (s : ItemSet) : s.close g.unranked = s.close g := by
  rw [close, close, expand_unranked, Grammar.length_rules_unranked]

end ItemSet

/-! ## The automaton -/

namespace Automaton

variable (g : Grammar)

@[simp] theorem nextSymbols_unranked : nextSymbols g.unranked = nextSymbols g := by
  funext items
  rw [nextSymbols, nextSymbols, Item.next?_unranked]

@[simp] theorem successor_unranked : successor g.unranked = successor g := by
  funext items x
  rw [successor, successor, ItemSet.close_unranked, Item.next?_unranked, Item.advance?_unranked]

@[simp] theorem outgoing_unranked : outgoing g.unranked = outgoing g := by
  funext targets origin item
  simp only [outgoing, Item.next?_unranked, Item.atEnd_unranked, Item.left_unranked,
    Item.reduces_unranked, Grammar.isTerminal_unranked, Grammar.inputSymbols_unranked]
  rfl

@[simp] theorem visit_unranked (a : Automaton) : a.visit g.unranked = a.visit g := by
  funext i
  simp only [visit, nextSymbols_unranked, successor_unranked, outgoing_unranked]

@[simp] theorem populateFrom_unranked (bound i : Nat) (a : Automaton) :
    populateFrom g.unranked bound i a = populateFrom g bound i a := by
  induction bound generalizing i a with
  | zero => rfl
  | succ bound ih =>
    simp only [populateFrom, visit_unranked, ih]

@[simp] theorem startSet_unranked : startSet g.unranked = startSet g := by
  rw [startSet, startSet, ItemSet.close_unranked, Grammar.rulesFor_unranked]

/-- Priorities have no part in the construction. -/
@[simp] theorem build_unranked : build g.unranked = build g := by
  simp only [build, populate, initial, populateFrom_unranked, startSet_unranked,
    Grammar.items_unranked]

variable (a : Automaton)

@[simp] theorem items_unranked : a.items g.unranked = a.items g := by
  rw [items, items, Grammar.items_unranked]

@[simp] theorem followers_unranked : a.followers g.unranked = a.followers g := by
  rw [followers, followers, items_unranked, Item.follower?_unranked]

@[simp] theorem followTable_unranked : a.followTable g.unranked = a.followTable g := by
  have hadd : addFollow g.unranked = addFollow g := by
    funext follow follower
    rw [addFollow, addFollow, Item.firstWith_unranked]
  rw [followTable, followTable, followers_unranked, hadd, Grammar.symbols_unranked]

end Automaton

/-! ## Questions about items -/

namespace Checked

variable (g : Grammar)

theorem rule_unranked (r : RuleId) : rule g.unranked r = Rule.unranked <$> rule g r := by
  rw [rule, rule, Grammar.rule?_unranked]
  cases g.rule? r <;> rfl

@[simp] theorem left_unranked : left g.unranked = left g := by
  funext item
  rw [left, left, rule_unranked]
  cases rule g item.rule <;> rfl

@[simp] theorem rest_unranked : rest g.unranked = rest g := by
  funext item
  rw [rest, rest, rule_unranked]
  cases rule g item.rule <;> rfl

@[simp] theorem previous_unranked : previous g.unranked = previous g := by
  funext item
  obtain ⟨r, dot⟩ := item
  cases dot with
  | zero => rfl
  | succ before =>
    rw [previous, previous, rule_unranked]
    cases rule g r <;> rfl

@[simp] theorem advance_unranked : advance g.unranked = advance g := by
  funext item
  rw [advance, advance, atEnd, atEnd, rule_unranked]
  cases rule g item.rule <;> rfl

@[simp] theorem firstWith_unranked : firstWith g.unranked = firstWith g := by
  funext follow item
  simp only [firstWith, left_unranked, rest_unranked]
  rfl

/-! The lookahead of a reduction is computed from all that a survey holds, and of its grammar the
priorities do not count. -/

variable (v : Survey)

theorem enclosing_unranked (left : SymbolId) :
    enclosing { v with grammar := v.grammar.unranked } left = enclosing v left := by
  have hadd : addEnclosing { v with grammar := v.grammar.unranked } = addEnclosing v := by
    funext known item
    simp only [addEnclosing, previous_unranked, left_unranked, rest_unranked]
    rfl
  simp only [enclosing, hadd]
  rfl

theorem lookBehind_unranked :
    lookBehind { v with grammar := v.grammar.unranked } = lookBehind v := by
  have hat : lookAt { v with grammar := v.grammar.unranked } = lookAt v := by
    funext trigger item seen entry
    simp only [lookAt, firstWith_unranked]
    rfl
  funext ending trigger seen item
  simp only [lookBehind, previous_unranked, rest_unranked, hat]
  rfl

theorem reduceLookahead_unranked :
    reduceLookahead { v with grammar := v.grammar.unranked } = reduceLookahead v := by
  funext left trigger
  simp only [reduceLookahead, enclosing_unranked, lookBehind_unranked]

end Checked

namespace Survey

variable (g : Grammar) (a : Automaton)

/-- The survey of an automaton knows of priorities only through its grammar. -/
theorem make_unranked : make g.unranked a = { make g a with grammar := g.unranked } := by
  rw [make, make, withFollow, withFollow, Automaton.items_unranked, Automaton.followTable_unranked]

@[simp] theorem firstSet_unranked : (make g.unranked a).firstSet = (make g a).firstSet := by
  funext site
  rw [make_unranked]
  simp only [firstSet, Checked.firstWith_unranked]
  rfl

end Survey
end ShiftReduce
