/-
Nothing is looked up in vain in a well-formed grammar.

Each access of `ShiftReduce.Checked.Item` answers for what the grammar has, and answers as the
function without checks does.  What an access needs is one of three things: a rule or a symbol below
the end of its table, or an item that belongs to the grammar, whose rule is there and whose dot is
inside of it.  Moving dots and closing stay among such items, and the right sides of rules hold only
symbols that are there.
-/
import ShiftReduce.Automaton.Basic
import ShiftReduce.Checked.Item
import ShiftReduce.Proofs.Grammar.First
import ShiftReduce.Proofs.Item.Closure
import ShiftReduce.Proofs.Outcome

namespace ShiftReduce

namespace Failure

theorem orForeign_eq_ok {α : Type} {x : Option α} {a : α} : orForeign x = .ok a ↔ x = some a := by
  cases x with
  | none =>
    refine ⟨fun h => ?_, fun h => ?_⟩
    · cases h
    · cases h
  | some b =>
    refine ⟨fun h => ?_, fun h => ?_⟩
    · cases h
      rfl
    · cases h
      rfl

end Failure

namespace Checked

variable {g : Grammar}

/-! ## Tables of a grammar -/

theorem name_eq_ok {x : SymbolId} (h : x.index < g.symbols.length) :
    name g x = .ok (g.nameOf x) := by
  have hx : g.symbol? x = some g.symbols[x.index] := List.getElem?_eq_getElem h
  rw [name, symbol, Grammar.nameOf, Grammar.name?, hx]
  rfl

theorem isTerminal_eq_ok {x : SymbolId} (h : x.index < g.symbols.length) :
    isTerminal g x = .ok (g.isTerminal x) := by
  have hx : g.symbol? x = some g.symbols[x.index] := List.getElem?_eq_getElem h
  rw [isTerminal, symbol, Grammar.isTerminal, hx]
  rfl

theorem isNonterminal_eq_ok {x : SymbolId} (h : x.index < g.symbols.length) :
    isNonterminal g x = .ok (g.isNonterminal x) := by
  have hx : g.symbol? x = some g.symbols[x.index] := List.getElem?_eq_getElem h
  rw [isNonterminal, symbol, Grammar.isNonterminal, hx]
  rfl

/-- A rule that is there is found, and its parts are those that the grammar tells. -/
theorem exists_rule_ok {r : RuleId} (h : r.index < g.rules.length) :
    ∃ entry ∈ g.rules, g.rule? r = some entry ∧ rule g r = .ok entry ∧ entry.left = g.leftOf r ∧
      entry.right = g.rightOf r ∧ entry.priority = g.priorityOf r := by
  obtain ⟨entry, hmem, hentry⟩ := Grammar.exists_rule?_of_lt h
  refine ⟨entry, hmem, hentry, Failure.orForeign_eq_ok.mpr hentry,
    (Grammar.leftOf_of_rule? hentry).symm, (Grammar.rightOf_of_rule? hentry).symm, ?_⟩
  rw [Grammar.priorityOf, hentry]
  rfl

section WellFormed

variable (wf : g.WellFormed)

include wf

theorem firstOf_eq_ok {x : SymbolId} (h : x.index < g.symbols.length) :
    firstOf g x = .ok (g.firstOf x) := by
  have hx : x.index < g.first.length := wf.first_saturated.1.length_eq ▸ h
  rw [firstOf, List.getElem?_eq_getElem hx, Grammar.firstOf, setAt, List.getElem?_eq_getElem hx]
  rfl

end WellFormed

/-! ## Items -/

section Item

variable {item : Item} (h : item.BelongsTo g)

include h

theorem left_eq_ok : left g item = .ok (item.left g) := by
  obtain ⟨entry, _, _, hentry, hleft, _⟩ := exists_rule_ok h.1
  rw [left, hentry, Item.left, ← hleft]
  rfl

theorem next_eq_ok : next g item = .ok (item.next? g) := by
  obtain ⟨entry, _, _, hentry, _, hright, _⟩ := exists_rule_ok h.1
  rw [next, hentry, Item.next?, ← hright]
  rfl

theorem previous_eq_ok : previous g item = .ok (item.previous? g) := by
  obtain ⟨entry, _, _, hentry, _, hright, _⟩ := exists_rule_ok h.1
  unfold previous Item.previous?
  cases item.dot with
  | zero => rfl
  | succ before =>
    show (rule g item.rule >>= fun r => .ok r.right[before]?) = .ok (g.rightOf item.rule)[before]?
    rw [hentry, ← hright]
    rfl

theorem atEnd_eq_ok : atEnd g item = .ok (item.atEnd g) := by
  obtain ⟨entry, _, _, hentry, _, hright, _⟩ := exists_rule_ok h.1
  rw [atEnd, hentry, Item.atEnd, ← hright]
  rfl

theorem rest_eq_ok : rest g item = .ok (item.rest g) := by
  obtain ⟨entry, _, _, hentry, _, hright, _⟩ := exists_rule_ok h.1
  have hdot : item.dot ≤ entry.right.length := hright ▸ h.2
  rw [rest, hentry, Item.rest, ← hright]
  exact if_pos hdot

theorem advance_eq_ok : advance g item = .ok (item.advance? g) := by
  rw [advance, atEnd_eq_ok h, Item.advance?]
  cases item.atEnd g <;> rfl

theorem reduces_eq_ok : reduces g item = .ok (item.reduces g) := by
  unfold reduces Item.reduces
  by_cases hzero : item.rule.index = 0
  · rw [if_pos hzero, hzero]
    rfl
  · rw [if_neg hzero, atEnd_eq_ok h, bne_iff_ne.mpr hzero, Bool.true_and]

end Item

/-- What moves its dot still belongs to the grammar. -/
theorem belongsTo_of_advance? {item next : Item} (h : item.BelongsTo g)
    (hnext : item.advance? g = some next) : next.BelongsTo g := by
  obtain ⟨hrule, hdot⟩ := h
  unfold Item.advance? Item.atEnd at hnext
  split at hnext
  · cases hnext
  · rename_i hend
    cases hnext
    rw [beq_iff_eq] at hend
    exact ⟨hrule, Nat.lt_of_le_of_ne hdot hend⟩

theorem belongsTo_of_introduced {parent child : Item}
    (h : child ∈ ItemSet.introduced g parent) : child.BelongsTo g := by
  obtain ⟨x, r, _, _, hr, rfl⟩ := ItemSet.mem_introduced.mp h
  exact ⟨Grammar.index_lt_of_mem_rulesFor hr, Nat.zero_le _⟩

/-! ## Closure -/

section WellFormed

variable (wf : g.WellFormed)

include wf

theorem lt_of_next? {item : Item} {x : SymbolId} (h : item.next? g = some x) :
    x.index < g.symbols.length := (wf.mem_rightOf (List.mem_of_getElem? h)).1

theorem lt_of_previous? {item : Item} {x : SymbolId} (h : item.previous? g = some x) :
    x.index < g.symbols.length := by
  unfold Item.previous? at h
  split at h
  · cases h
  · exact (wf.mem_rightOf (List.mem_of_getElem? h)).1

theorem lt_of_mem_rest {item : Item} {x : SymbolId} (h : x ∈ item.rest g) :
    x.index < g.symbols.length := (wf.mem_rightOf (List.mem_of_mem_drop h)).1

theorem introduced_eq_ok {item : Item} (h : item.BelongsTo g) :
    introduced g item = .ok (ItemSet.introduced g item) := by
  refine bind_eq_ok.mpr ⟨_, next_eq_ok h, ?_⟩
  unfold ItemSet.introduced
  cases hx : item.next? g with
  | none => rfl
  | some x =>
    refine bind_eq_ok.mpr ⟨_, isNonterminal_eq_ok (lt_of_next? wf hx), ?_⟩
    show (if g.isNonterminal x = true then _ else _) = Except.ok (if _ then _ else _)
    split
    · rfl
    · rfl

/-- Closing never leaves the items of the grammar, so it is never refused. -/
theorem expand_eq_ok (bound position : Nat) {s : ItemSet} (h : ∀ item ∈ s.items, item.BelongsTo g) :
    expand g bound position s = .ok (ItemSet.expand g bound position s) := by
  induction bound generalizing position s with
  | zero => rfl
  | succ bound ih =>
    unfold expand ItemSet.expand
    cases hitem : s.items[position]? with
    | none => rfl
    | some item =>
      refine bind_eq_ok.mpr ⟨_, introduced_eq_ok wf (h item (List.mem_of_getElem? hitem)), ?_⟩
      refine ih _ fun child hchild => ?_
      rcases ItemSet.mem_items_addAll.mp hchild with hchild | hchild
      · exact h child hchild
      · exact belongsTo_of_introduced hchild

theorem close_eq_ok {s : ItemSet} (h : ∀ item ∈ s.items, item.BelongsTo g) :
    close g s = .ok (s.close g) := expand_eq_ok wf _ 0 h

/-! ## Written form -/

theorem renderRule_eq_ok {r : Rule} (h : r ∈ g.rules) : renderRule g r = .ok (r.render g) := by
  have hright : (r.right.zip r.bindings).mapM (renderBound g) =
      .ok ((r.right.zip r.bindings).map fun entry =>
        " " ++ g.nameOf entry.1 ++ Rule.renderBinding entry.2) := by
    refine mapM_eq_ok_map fun entry hentry => ?_
    have hx := (wf.right_mem r h entry.1 (List.of_mem_zip hentry).1).1
    rw [renderBound, name_eq_ok hx]
    rfl
  exact bind_eq_ok.mpr ⟨_, name_eq_ok (wf.left_lt h), bind_eq_ok.mpr ⟨_, hright, rfl⟩⟩

theorem renderGrammar_eq_ok : renderGrammar g = .ok g.render := by
  have hlines : (g.rules.zipIdx.mapM fun entry => do
      let text ← renderRule g entry.1
      return toString entry.2 ++ ": " ++ text ++ "\n") =
        Except.ok (g.rules.zipIdx.map fun entry =>
          toString entry.2 ++ ": " ++ entry.1.render g ++ "\n") := by
    refine mapM_eq_ok_map fun entry hentry => ?_
    have hr := List.mem_of_getElem? (List.mem_zipIdx_iff_getElem?.mp hentry)
    rw [renderRule_eq_ok wf hr]
    rfl
  rw [renderGrammar, hlines]
  rfl

theorem render_eq_ok {item : Item} (h : item.BelongsTo g) : render g item = .ok (item.render g) := by
  obtain ⟨entry, hmem, _, hentry, hleft, hright, hpriority⟩ := exists_rule_ok h.1
  have hnames : entry.right.mapM (name g) = .ok (entry.right.map g.nameOf) :=
    mapM_eq_ok_map fun x hx => name_eq_ok (wf.right_mem entry hmem x hx).1
  refine bind_eq_ok.mpr ⟨_, hentry, bind_eq_ok.mpr ⟨_, name_eq_ok (wf.left_lt hmem),
    bind_eq_ok.mpr ⟨_, hnames, ?_⟩⟩⟩
  rw [Item.render, Item.left, ← hleft, ← hright, ← hpriority, List.map_map]
  rfl

theorem renderItems_eq_ok {s : ItemSet} (h : ∀ item ∈ s.items, item.BelongsTo g) :
    renderItems g s = .ok (s.render g) := by
  have hlines : (s.items.zipIdx.mapM fun entry => do
      let text ← render g entry.1
      return (if s.isKernel entry.2 then " " else "+") ++ " " ++ text ++ "\n") =
        Except.ok (s.items.zipIdx.map fun entry =>
          (if s.isKernel entry.2 then " " else "+") ++ " " ++ entry.1.render g ++ "\n") := by
    refine mapM_eq_ok_map fun entry hentry => ?_
    have hitem := List.mem_of_getElem? (List.mem_zipIdx_iff_getElem?.mp hentry)
    rw [render_eq_ok wf (h _ hitem)]
    rfl
  rw [renderItems, hlines]
  rfl

end WellFormed

end Checked

/-! ## Automata -/

namespace Automaton

theorem item_eq_ok {a : Automaton} {site : Site} {item : Item} :
    a.item site = .ok item ↔ ∃ s : State, a.states[site.state.index]? = some s ∧
      s.itemSet.items[site.position]? = some item := by
  rw [Automaton.item, bind_eq_ok]
  simp only [state, state?]
  constructor
  · rintro ⟨s, hs, h⟩
    split at hs
    · rename_i hs'
      cases hs
      split at h
      · rename_i hitem
        cases h
        exact ⟨s, hs', hitem⟩
      · cases h
    · cases hs
  · rintro ⟨s, hs, hitem⟩
    refine ⟨s, ?_, ?_⟩
    · rw [hs]
    · rw [hitem]

/-- All items of an automaton belong to the grammar. -/
def BelongsTo (a : Automaton) (g : Grammar) : Prop :=
  ∀ s ∈ a.states, ∀ item ∈ s.itemSet.items, item.BelongsTo g

theorem BelongsTo.of_item {g : Grammar} {a : Automaton} (h : a.BelongsTo g) {site : Site}
    {item : Item} (hitem : a.item site = .ok item) : item.BelongsTo g := by
  obtain ⟨s, hs, hposition⟩ := item_eq_ok.mp hitem
  exact h s (List.mem_of_getElem? hs) item (List.mem_of_getElem? hposition)

end Automaton
end ShiftReduce
