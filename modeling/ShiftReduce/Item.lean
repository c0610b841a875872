/-
Items: a rule with a dot in its right side.

What stands before the dot has been recognised and what stands behind it is still
expected.  An item holds the number of its rule and not the rule, so every
question about it takes the grammar.  `Item.make` is the way to get one from
numbers given by a user and refuses a dot behind the end of the rule; inside the
library items are made by moving the dot of another one.
-/
import ShiftReduce.Grammar.Render
import ShiftReduce.Failure

namespace ShiftReduce

structure Item where
  rule : RuleId
  dot : Nat
deriving DecidableEq

namespace Item

/-- The item of a rule with the dot at a position, if the rule exists and reaches
that far. -/
def make (g : Grammar) (rule : RuleId) (dot : Nat) : Except Failure Item :=
  match g.rule? rule with
  | none => .error .foreignHandle
  | some r =>
      if dot ≤ r.right.length then .ok ⟨rule, dot⟩
      else .error (.invalidItem rule.index dot r.right.length)

/-- The item belongs to the grammar: its rule exists and its dot is inside. -/
def BelongsTo (g : Grammar) (item : Item) : Prop :=
  item.rule.index < g.rules.length ∧ item.dot ≤ (g.rightOf item.rule).length

instance (g : Grammar) (item : Item) : Decidable (item.BelongsTo g) :=
  inferInstanceAs (Decidable (_ ∧ _))

/-- The left side of the item's rule. -/
def left (g : Grammar) (item : Item) : SymbolId := g.leftOf item.rule

/-- What stands behind the dot. -/
def rest (g : Grammar) (item : Item) : List SymbolId := (g.rightOf item.rule).drop item.dot

/-- The symbol right behind the dot. -/
def next? (g : Grammar) (item : Item) : Option SymbolId := (g.rightOf item.rule)[item.dot]?

/-- The symbol right before the dot. -/
def previous? (g : Grammar) (item : Item) : Option SymbolId :=
  match item.dot with
  | 0 => none
  | before + 1 => (g.rightOf item.rule)[before]?

/-- All of the rule has been recognised. -/
def atEnd (g : Grammar) (item : Item) : Bool := item.dot == (g.rightOf item.rule).length

/-- The dot one symbol further, unless it is at the end. -/
def advance? (g : Grammar) (item : Item) : Option Item :=
  if item.atEnd g then none else some { item with dot := item.dot + 1 }

/-- A complete item reduces, except for that of rule 0, which accepts. -/
def reduces (g : Grammar) (item : Item) : Bool := item.rule.index != 0 && item.atEnd g

/-- The symbol behind the dot is the first of what is left. -/
theorem next?_eq_head?_rest (g : Grammar) (item : Item) : item.next? g = (item.rest g).head? := by
  rw [next?, rest, List.head?_drop]

/-- What is left splits into the symbol behind the dot and what is left once the
dot has moved over it. -/
theorem rest_of_next? {g : Grammar} {item : Item} {x : SymbolId} (h : item.next? g = some x) :
    item.rest g = x :: Item.rest g { item with dot := item.dot + 1 } := by
  obtain ⟨hlt, hx⟩ := List.getElem?_eq_some_iff.mp h
  rw [rest, List.drop_eq_getElem_cons hlt, hx]
  rfl

/-- The dot can move exactly when there is a symbol behind it, provided that it is
not outside of the rule. -/
theorem advance?_of_next? {g : Grammar} {item : Item} {x : SymbolId} (h : item.next? g = some x) :
    item.advance? g = some { item with dot := item.dot + 1 } := by
  obtain ⟨hlt, _⟩ := List.getElem?_eq_some_iff.mp h
  rw [advance?, atEnd, if_neg]
  rw [beq_iff_eq]
  exact Nat.ne_of_lt hlt

/-- A dot that has moved stands right behind the symbol it moved over. -/
theorem previous?_of_advance? {g : Grammar} {item moved : Item} (h : item.advance? g = some moved) :
    moved.previous? g = item.next? g := by
  unfold advance? at h
  split at h
  · cases h
  · cases h
    rfl

/-- For instance `expr -> expr + • term (prio: 2)`. -/
def render (g : Grammar) (item : Item) : String :=
  let right := (g.rightOf item.rule).map fun x => " " ++ g.nameOf x
  let priority := g.priorityOf item.rule
  g.nameOf (item.left g) ++ " ->" ++ String.join (right.take item.dot) ++ " •" ++
    String.join (right.drop item.dot) ++
    (if priority = 0 then "" else " (prio: " ++ toString priority ++ ")")

end Item

namespace Grammar

/-- All items of the grammar, ordered by rule and then by dot. -/
def items (g : Grammar) : List Item :=
  g.rules.zipIdx.flatMap fun entry =>
    (List.range (entry.1.right.length + 1)).map fun dot => ⟨Handle.ofNat entry.2, dot⟩

/-- What belongs to the grammar is among its items, however many rules there are. -/
theorem mem_items_of_belongsTo {g : Grammar} {item : Item} (h : item.BelongsTo g) :
    item ∈ g.items := by
  obtain ⟨hr, hdot⟩ := h
  have hright : g.rightOf item.rule = g.rules[item.rule.index].right := by
    rw [rightOf, rule?, Handle.get?, List.getElem?_eq_getElem hr]
    rfl
  rw [hright] at hdot
  rw [items, List.mem_flatMap]
  refine ⟨(g.rules[item.rule.index], item.rule.index), ?_, ?_⟩
  · exact List.mem_zipIdx_iff_getElem?.mpr (List.getElem?_eq_getElem hr)
  · refine List.mem_map.mpr ⟨item.dot, List.mem_range.mpr (Nat.lt_succ_iff.mpr hdot), ?_⟩
    rw [Handle.ofNat_index]

/-- The items of a grammar are the ones that belong to it, as long as every rule
has a handle of its own. -/
theorem mem_items {g : Grammar} (h : g.rules.length ≤ handleSpan) {item : Item} :
    item ∈ g.items ↔ item.BelongsTo g := by
  refine ⟨fun hmem => ?_, mem_items_of_belongsTo⟩
  obtain ⟨⟨rule, i⟩, hentry, hitem⟩ := List.mem_flatMap.mp hmem
  obtain ⟨dot, hdot, rfl⟩ := List.mem_map.mp hitem
  have hi := List.mem_zipIdx_iff_getElem?.mp hentry
  obtain ⟨hlt, _⟩ := List.getElem?_eq_some_iff.mp hi
  have hindex : (Handle.ofNat i : RuleId).index = i :=
    Handle.index_ofNat_of_lt (Nat.lt_of_lt_of_le hlt h)
  have hright : g.rightOf (Handle.ofNat i) = rule.right := by
    rw [rightOf, rule?, Handle.get?, hindex, hi]
    rfl
  refine ⟨?_, ?_⟩
  · show (Handle.ofNat i : RuleId).index < g.rules.length
    rw [hindex]
    exact hlt
  · show dot ≤ (g.rightOf (Handle.ofNat i)).length
    rw [hright]
    exact Nat.lt_succ_iff.mp (List.mem_range.mp hdot)

end Grammar
end ShiftReduce
