/-
Viable prefixes.

A parser that has recognised some symbols is in the state their path leads to, and
the items of that state are what it may be in the middle of.  Said without states:
rules lead from rule 0 to the rule of the item, each with the left side of the next
one in its right side, and what stands before those left sides and before the dot
of the item spells the symbols recognised.  `path_iff_viable` says that the two
accounts agree.

The chain of rules is what the closure follows within one state, and the dot is
what an edge moves.  So there is one induction on chains, `Viable.induction`, and
everything about several states is an induction on paths.
-/
import ShiftReduce.Proofs.Automaton.Population
import ShiftReduce.Proofs.Grammar.Derivation

namespace ShiftReduce

namespace Grammar

/-- Rules from rule 0 on, each with the left side of the next one in its right side,
and all that stands before these left sides. -/
inductive Chain (g : Grammar) : List SymbolId → RuleId → Prop
  | start : Chain g [] (Handle.ofNat 0)
  | link {context front back : List SymbolId} {r r' : RuleId} :
      Chain g context r → g.rightOf r = front ++ g.leftOf r' :: back →
        r'.index < g.rules.length → Chain g (context ++ front) r'

/-- The rules that lead to a rule derive its right side behind what stands before
it. -/
theorem Chain.derives {g : Grammar} (wf : g.WellFormed) {context : List SymbolId} {r : RuleId}
    (h : g.Chain context r) :
    ∃ (start : SymbolId) (rest : List SymbolId), g.start? = some start ∧
      g.Derives [start] (context ++ g.rightOf r ++ rest) := by
  induction h with
  | start =>
    obtain ⟨start, hstart, hzero, _⟩ := wf.exists_start
    have hrule : g.rule? (Handle.ofNat 0) = some (Builder.acceptRule start) := hzero
    refine ⟨start, [], hstart, ?_⟩
    rw [rightOf_of_rule? hrule]
    exact .refl
  | @link context front back r r' _ hright hr ih =>
    obtain ⟨start, rest, hstart, hderives⟩ := ih
    refine ⟨start, back ++ rest, hstart, hderives.tail ?_⟩
    have before : context ++ g.rightOf r ++ rest =
        context ++ front ++ g.leftOf r' :: (back ++ rest) := by
      simp only [hright, List.append_assoc, List.cons_append]
    rw [before]
    exact .replace (context ++ front) (back ++ rest) hr

end Grammar

namespace Item

/-- The item is one that a parser may be in the middle of once it has recognised
these symbols. -/
def Viable (g : Grammar) (recognised : List SymbolId) (item : Item) : Prop :=
  item.dot ≤ (g.rightOf item.rule).length ∧
    ∃ context, g.Chain context item.rule ∧
      recognised = context ++ (g.rightOf item.rule).take item.dot

variable {g : Grammar} {xs : List SymbolId}

theorem viable_start (g : Grammar) : Viable g [] ⟨Handle.ofNat 0, 0⟩ :=
  ⟨Nat.zero_le _, [], .start, rfl⟩

/-- Where an item waits for the left side of a rule, that rule may begin. -/
theorem Viable.front {item : Item} (h : item.Viable g xs) {r : RuleId}
    (hx : item.next? g = some (g.leftOf r)) (hr : r.index < g.rules.length) :
    Viable g xs ⟨r, 0⟩ := by
  obtain ⟨_, context, hchain, hxs⟩ := h
  obtain ⟨hlt, hget⟩ := List.getElem?_eq_some_iff.mp hx
  have hsplit : g.rightOf item.rule =
      (g.rightOf item.rule).take item.dot ++
        g.leftOf r :: (g.rightOf item.rule).drop (item.dot + 1) := by
    rw [← hget, ← List.drop_eq_getElem_cons hlt, List.take_append_drop]
  refine ⟨Nat.zero_le _, xs, ?_, ?_⟩
  · rw [hxs]
    exact .link hchain hsplit hr
  · show xs = xs ++ (g.rightOf r).take 0
    rw [List.take_zero, List.append_nil]

theorem Viable.moved {item : Item} (h : item.Viable g xs) {x : SymbolId}
    (hx : item.next? g = some x) : Viable g (xs ++ [x]) { item with dot := item.dot + 1 } := by
  obtain ⟨_, context, hchain, hxs⟩ := h
  obtain ⟨hlt, _⟩ := List.getElem?_eq_some_iff.mp hx
  refine ⟨hlt, context, hchain, ?_⟩
  have hx : (g.rightOf item.rule)[item.dot]? = some x := hx
  show xs ++ [x] = context ++ (g.rightOf item.rule).take (item.dot + 1)
  rw [List.take_add_one, hx, hxs, List.append_assoc]
  rfl

/-- A dot that is not in front has moved over the last symbol recognised. -/
theorem Viable.exists_moved {item : Item} (h : item.Viable g xs) (hdot : item.dot ≠ 0) :
    ∃ (before : Item) (ys : List SymbolId) (x : SymbolId), before.Viable g ys ∧
      before.next? g = some x ∧ xs = ys ++ [x] ∧ item = { before with dot := before.dot + 1 } := by
  obtain ⟨hle, context, hchain, hxs⟩ := h
  obtain ⟨r, n⟩ := item
  obtain ⟨n, rfl⟩ := Nat.exists_eq_succ_of_ne_zero hdot
  have hlt : n < (g.rightOf r).length := hle
  refine ⟨⟨r, n⟩, context ++ (g.rightOf r).take n, (g.rightOf r)[n],
    ⟨Nat.le_of_lt hlt, context, hchain, rfl⟩, List.getElem?_eq_getElem hlt, ?_, rfl⟩
  rw [hxs, List.append_assoc]
  show context ++ (g.rightOf r).take (n + 1) = _
  rw [List.take_add_one, List.getElem?_eq_getElem hlt]
  rfl

theorem Viable.exists_moved_over {x : SymbolId} {item : Item} (h : item.Viable g (xs ++ [x]))
    (hdot : item.dot ≠ 0) : ∃ before : Item, before.Viable g xs ∧ before.next? g = some x ∧
      item = { before with dot := before.dot + 1 } := by
  obtain ⟨before, ys, y, hbefore, hy, hsplit, e⟩ := h.exists_moved hdot
  obtain ⟨rfl, hxy⟩ := List.append_inj' hsplit rfl
  cases hxy
  exact ⟨before, hbefore, hy, e⟩

/-- What is viable after some symbols comes about in three ways: rule 0 begins, a dot
has moved, or the rule of an item that came about in this way before begins.  The
induction goes back along the chain of rules. -/
theorem Viable.induction {P : Item → Prop} {item : Item} (h : item.Viable g xs)
    (start : xs = [] → P ⟨Handle.ofNat 0, 0⟩)
    (moved : ∀ i : Item, i.Viable g xs → i.dot ≠ 0 → P i)
    (front : ∀ (parent : Item) (r : RuleId), P parent → parent.next? g = some (g.leftOf r) →
      r.index < g.rules.length → P ⟨r, 0⟩) : P item := by
  obtain ⟨r, n⟩ := item
  obtain ⟨hle, context, hchain, hxs⟩ := h
  change n ≤ (g.rightOf r).length at hle
  change g.Chain context r at hchain
  change xs = context ++ (g.rightOf r).take n at hxs
  induction hchain generalizing n with
  | start =>
    by_cases hn : n = 0
    · subst hn
      exact start hxs
    · exact moved _ ⟨hle, [], .start, hxs⟩ hn
  | @link context before back parent r hchain hright hr ih =>
    by_cases hn : n = 0
    · subst hn
      have hparent : P ⟨parent, before.length⟩ := by
        apply ih
        · rw [hright, List.length_append]
          omega
        · rw [hxs, List.take_zero, List.append_nil, hright, List.take_left]
      refine front _ r hparent ?_ hr
      show (g.rightOf parent)[before.length]? = _
      rw [hright, List.getElem?_append_right (Nat.le_refl _), Nat.sub_self]
      rfl
    · exact moved _ ⟨hle, _, .link hchain hright hr, hxs⟩ hn

/-- A rule begins where an item waits for its left side. -/
theorem Viable.exists_waiting {r : RuleId} (h : Viable g xs ⟨r, 0⟩) (hr : r.index ≠ 0) :
    ∃ parent : Item, parent.Viable g xs ∧ parent.next? g = some (g.leftOf r) := by
  obtain ⟨_, context, hchain, hxs⟩ := h
  cases hchain with
  | start => exact absurd rfl hr
  | @link before front back parent _ hchain hright _ =>
    refine ⟨⟨parent, front.length⟩, ⟨?_, before, hchain, ?_⟩, ?_⟩
    · show front.length ≤ (g.rightOf parent).length
      rw [hright, List.length_append]
      omega
    · show xs = before ++ (g.rightOf parent).take front.length
      rw [hxs, List.take_zero, List.append_nil, hright, List.take_left]
    · show (g.rightOf parent)[front.length]? = some (g.leftOf r)
      rw [hright, List.getElem?_append_right (Nat.le_refl _), Nat.sub_self]
      rfl

/-- What is viable after some symbols has, before the last of them, an item that
waits for it. -/
theorem Viable.exists_before {x : SymbolId} {item : Item} (h : item.Viable g (xs ++ [x])) :
    ∃ before : Item, before.Viable g xs ∧ before.next? g = some x := by
  refine h.induction (P := fun _ => ∃ before : Item, before.Viable g xs ∧ before.next? g = some x)
    ?_ ?_ ?_
  · intro hnil
    exact absurd hnil (List.concat_ne_nil x xs)
  · intro i hi hdot
    obtain ⟨before, hbefore, hx, _⟩ := hi.exists_moved_over hdot
    exact ⟨before, hbefore, hx⟩
  · intro _ _ hparent _ _
    exact hparent

/-- Symbols after which an item is viable begin a sentential form. -/
theorem Viable.derives (wf : g.WellFormed) {item : Item} (h : item.Viable g xs) :
    ∃ (start : SymbolId) (rest : List SymbolId), g.start? = some start ∧
      g.Derives [start] (xs ++ rest) := by
  obtain ⟨_, context, hchain, hxs⟩ := h
  obtain ⟨start, rest, hstart, hderives⟩ := hchain.derives wf
  refine ⟨start, (g.rightOf item.rule).drop item.dot ++ rest, hstart, ?_⟩
  rw [hxs, ← List.append_assoc, List.append_assoc context, List.take_append_drop]
  exact hderives

end Item

namespace Automaton

variable {g : Grammar}

/-- The closure of a kernel has exactly the viable items, if the kernel has those
with a dot that has moved and, in the beginning, the front of rule 0. -/
theorem closure_iff_viable (wf : g.WellFormed) {kernel : List Item} {xs : List SymbolId}
    (hviable : ∀ item ∈ kernel, item.Viable g xs)
    (hstart : xs = [] → ⟨Handle.ofNat 0, 0⟩ ∈ kernel)
    (hmoved : ∀ item : Item, item.Viable g xs → item.dot ≠ 0 → item ∈ kernel) (item : Item) :
    ItemSet.Closure g kernel item ↔ item.Viable g xs := by
  constructor
  · intro h
    induction h with
    | kernel hk => exact hviable _ hk
    | front _ hx _ hr ih =>
      obtain ⟨hlt, rfl⟩ := wf.mem_rulesFor.mp hr
      exact ih.front hx hlt
  · intro h
    refine h.induction ?_ ?_ ?_
    · intro hxs
      exact .kernel (hstart hxs)
    · intro i hi hdot
      exact .kernel (hmoved i hi hdot)
    · intro parent r hparent hx hr
      exact .front hparent hx (wf.isNonterminal_leftOf hr) (wf.mem_rulesFor.mpr ⟨hr, rfl⟩)

namespace Canonical

variable {a : Automaton} (hc : Canonical g a) (wf : g.WellFormed)

include hc wf

/-- The state that a path leads to has exactly the items that are viable after its
symbols. -/
theorem mem_items_iff_viable {xs : List SymbolId} {q : Nat} (h : a.Path 0 xs q) :
    ∃ s : State, a.states[q]? = some s ∧
      ∀ item, item ∈ s.itemSet.items ↔ item.Viable g xs := by
  induction h with
  | nil =>
    obtain ⟨⟨s, hs, hitems⟩, _⟩ := hc.start
    refine ⟨s, hs, fun item => (hitems item).trans (closure_iff_viable wf ?_ ?_ ?_ item)⟩
    · intro k hk
      rw [List.mem_singleton.mp hk]
      exact Item.viable_start g
    · intro _
      exact List.mem_singleton_self _
    · intro k hk hdot
      obtain ⟨_, ys, x, _, _, hnil, _⟩ := hk.exists_moved hdot
      exact absurd hnil.symm (List.concat_ne_nil x ys)
  | @snoc xs p q x _ hedge ih =>
    obtain ⟨s, hs, hviable⟩ := ih
    obtain ⟨s₁, s', hs₁, hs', _, hitems⟩ := hc.edge hedge
    rw [hs] at hs₁
    cases hs₁
    refine ⟨s', hs', fun item => (hitems item).trans (closure_iff_viable wf ?_ ?_ ?_ item)⟩
    · intro k hk
      obtain ⟨before, hbefore, hx, rfl⟩ := mem_movedOver.mp hk
      exact ((hviable before).mp hbefore).moved hx
    · intro hnil
      exact absurd hnil (List.concat_ne_nil x xs)
    · intro k hk hdot
      obtain ⟨before, hbefore, hx, rfl⟩ := hk.exists_moved_over hdot
      exact mem_movedOver.mpr ⟨before, (hviable before).mpr hbefore, hx, rfl⟩

theorem exists_path_of_viable {xs : List SymbolId} {item : Item} (h : item.Viable g xs) :
    ∃ q, a.Path 0 xs q := by
  induction xs using List.reverseRecOn generalizing item with
  | nil => exact ⟨0, .nil⟩
  | append_singleton xs x ih =>
    obtain ⟨before, hbefore, hx⟩ := h.exists_before
    obtain ⟨p, hp⟩ := ih hbefore
    obtain ⟨s, hs, hitems⟩ := hc.mem_items_iff_viable wf hp
    obtain ⟨target, hcomplete⟩ := hc.complete s (List.mem_of_getElem? hs)
    obtain ⟨t, ht, hsymbol, hto⟩ :=
      hcomplete.exists_transition wf ((hitems before).mpr hbefore) hx
    exact ⟨(target x).index, .snoc hp ⟨s, t, target x, hs, ht, hsymbol, hto, rfl⟩⟩

theorem exists_viable_of_path {xs : List SymbolId} {q : Nat} (h : a.Path 0 xs q) :
    ∃ item : Item, item.Viable g xs := by
  cases h with
  | nil => exact ⟨_, Item.viable_start g⟩
  | @snoc xs p q x hpath hedge =>
    obtain ⟨s, hs, hviable⟩ := hc.mem_items_iff_viable wf hpath
    obtain ⟨s₁, _, hs₁, _, ⟨item, hitem, hx⟩, _⟩ := hc.edge hedge
    rw [hs] at hs₁
    cases hs₁
    exact ⟨_, ((hviable item).mp hitem).moved hx⟩

theorem path_unique {xs : List SymbolId} {p q : Nat} (hp : a.Path 0 xs p) (hq : a.Path 0 xs q) :
    p = q := by
  obtain ⟨s, hs, hitems⟩ := hc.mem_items_iff_viable wf hp
  obtain ⟨s', hs', hitems'⟩ := hc.mem_items_iff_viable wf hq
  exact hc.distinct p q s s' hs hs' fun item => (hitems item).trans (hitems' item).symm

end Canonical

/-- Some symbols spell a path from the first state exactly when an item is viable
after them.  The path is the only one, and the state it leads to has exactly the
items that are viable. -/
theorem path_iff_viable {g : Grammar} (built : g.Built) (fits : g.Fits) (xs : List SymbolId) :
    ((∃ q, (build g).Path 0 xs q) ↔ ∃ item : Item, item.Viable g xs) ∧
      ∀ q, (build g).Path 0 xs q → (∀ q', (build g).Path 0 xs q' → q' = q) ∧
        ∃ s : State, (build g).states[q]? = some s ∧
          ∀ item, item ∈ s.itemSet.items ↔ item.Viable g xs := by
  have wf := built.wellFormed fits.symbols fits.rules
  have hc := wf.canonical fits.states
  refine ⟨⟨?_, ?_⟩, fun q hq => ⟨fun q' hq' => hc.path_unique wf hq' hq, ?_⟩⟩
  · rintro ⟨q, hq⟩
    exact hc.exists_viable_of_path wf hq
  · rintro ⟨item, hitem⟩
    exact hc.exists_path_of_viable wf hitem
  · exact hc.mem_items_iff_viable wf hq

/-- A list and an item, recognised one after the other, are a list: `list ::= list
item` is complete where their path leads. -/
theorem path_iff_viable_itemList : ∃ (g : Grammar) (q : Nat) (s : State),
    Grammar.ofDefinitions Grammar.itemList = .ok g ∧
      (build g).Path 0 [Handle.ofNat 2, Handle.ofNat 3] q ∧ (build g).states[q]? = some s ∧
        (⟨Handle.ofNat 1, 2⟩ : Item) ∈ s.itemSet.items := by
  obtain ⟨g, hg, h⟩ : ∃ g, Grammar.ofDefinitions Grammar.itemList = .ok g ∧
      decide (g.Fits ∧ 1 < g.rules.length ∧ g.leftOf (Handle.ofNat 1) = Handle.ofNat 2 ∧
        g.rightOf (Handle.ofNat 0) = [Handle.ofNat 2] ∧
          g.rightOf (Handle.ofNat 1) = [Handle.ofNat 2, Handle.ofNat 3]) = true :=
    exists_ok_of_any (by decide +kernel)
  obtain ⟨fits, hrule, hleft, hzero, hright⟩ := of_decide_eq_true h
  have hviable : (⟨Handle.ofNat 1, 2⟩ : Item).Viable g [Handle.ofNat 2, Handle.ofNat 3] := by
    have hbegins : g.rightOf (Handle.ofNat 0) = [] ++ g.leftOf (Handle.ofNat 1) :: [] := by
      rw [hzero, hleft]
      rfl
    have hchain : g.Chain ([] ++ []) (Handle.ofNat 1) := .link .start hbegins hrule
    refine ⟨?_, _, hchain, ?_⟩
    · rw [hright]
      decide
    · rw [hright]
      rfl
  obtain ⟨hpath, hitems⟩ := path_iff_viable (.ofDefinitions hg) fits
    [Handle.ofNat 2, Handle.ofNat 3]
  obtain ⟨q, hq⟩ := hpath.mpr ⟨_, hviable⟩
  obtain ⟨_, s, hs, hmem⟩ := hitems q hq
  exact ⟨g, q, s, hg, hq, hs, (hmem _).mpr hviable⟩

end Automaton
end ShiftReduce
