/-
The parser accepts what the grammar derives.

Tables that serve the canonical collection let the parser follow any forest: with
an item in its top state whose rest begins with the roots of the forest, it reads
the yield, reduces by the rules of the nodes in postorder, and ends with one more
state for each root and the item's dot behind them.  `reaches_of_forest` is that
run, by induction on the forest; `step_of_shift` and `step_of_reduce` are its two
kinds of steps.

A run makes its reductions in one way, and they are the postorder of the forest it
followed.  So two parse trees of one sentence are the same, which is `parses_unique`.
-/
import ShiftReduce.Proofs.Table.Generated

namespace ShiftReduce

namespace Item

/-- The item with its dot moved over some symbols. -/
def move (item : Item) (n : Nat) : Item := { item with dot := item.dot + n }

theorem move_move (item : Item) (m n : Nat) : (item.move m).move n = item.move (m + n) :=
  congrArg (Item.mk item.rule) (Nat.add_assoc item.dot m n)

theorem move_cons (item : Item) (x : SymbolId) (xs : List SymbolId) :
    item.move (x :: xs).length = (item.move 1).move xs.length := by
  rw [move_move, List.length_cons, Nat.add_comm]

theorem next?_of_rest {g : Grammar} {item : Item} {x : SymbolId} {rest : List SymbolId}
    (h : item.rest g = x :: rest) :
    item.next? g = some x ∧ Item.rest g (item.move 1) = rest := by
  have hx : item.next? g = some x := by
    rw [next?_eq_head?_rest, h]
    rfl
  rw [rest_of_next? hx] at h
  exact ⟨hx, (List.cons.inj h).2⟩

end Item

namespace Automaton

variable {g : Grammar}

theorem Behind.isTerminal {a : Automaton} (wf : g.WellFormed) {x : SymbolId} {v : List SymbolId}
    (h : Behind g a x v) : ∀ y ∈ v, g.isTerminal y = true := by
  induction h with
  | accept =>
    intro y hy
    rw [List.mem_singleton.mp hy]
    exact wf.isTerminal_endMarker
  | step _ _ _ _ hyield _ ih =>
    intro y hy
    exact (List.mem_append.mp hy).elim (hyield y) (ih y)

theorem Ahead.isTerminal {a : Automaton} (wf : g.WellFormed) {item : Item} {v : List SymbolId}
    (h : Ahead g a item v) : ∀ y ∈ v, g.isTerminal y = true := by
  obtain ⟨f, v', _, _, hyield, hbehind, rfl⟩ := h
  intro y hy
  exact (List.mem_append.mp hy).elim (hyield y) (hbehind.isTerminal wf y)

/-- What can stand behind some symbols of an item can, after what they derive,
stand before them. -/
theorem Ahead.prepend {a : Automaton} {item : Item} {f : Forest} {rest v : List SymbolId}
    (h : Ahead g a (item.move (f.roots g).length) v) (hrest : item.rest g = f.roots g ++ rest)
    (hvalid : f.Valid g) (hyield : ∀ y ∈ f.yield, g.isTerminal y = true) :
    Ahead g a item (f.yield ++ v) := by
  obtain ⟨f', v', hvalid', hroots', hyield', hbehind, rfl⟩ := h
  have hmoved : Item.rest g (item.move (f.roots g).length) = rest := by
    show (g.rightOf item.rule).drop (item.dot + (f.roots g).length) = rest
    rw [← List.drop_drop]
    show (item.rest g).drop (f.roots g).length = rest
    rw [hrest, List.drop_left]
  refine ⟨f.append f', v', Forest.valid_append.mpr ⟨hvalid, hvalid'⟩, ?_, fun y hy => ?_,
    hbehind, ?_⟩
  · rw [Forest.roots_append, hroots', hmoved, hrest]
  · rw [Forest.yield_append] at hy
    exact (List.mem_append.mp hy).elim (hyield y) (hyield' y)
  · rw [Forest.yield_append, List.append_assoc]

/-- What stands ahead once the dot has moved over a symbol stands behind it. -/
theorem Canonical.behind_of_ahead {a : Automaton} (hc : Canonical g a) (wf : g.WellFormed)
    {q : Nat} {s : State} (hs : a.states[q]? = some s) {item : Item}
    (hitem : item ∈ s.itemSet.items) {x : SymbolId} (hx : item.next? g = some x)
    {v : List SymbolId} (h : Ahead g a (item.move 1) v) : Behind g a x v := by
  refine h.behind (hc.moved_mem_items wf hs hitem hx) ?_
  exact Item.previous?_of_advance? (Item.advance?_of_next? hx) ▸ hx

/-- The first state has rule 0 in it, and behind that the input ends. -/
theorem Canonical.exists_start {a : Automaton} (hc : Canonical g a) {start : SymbolId}
    (hstart : g.start? = some start) :
    ∃ s : State, a.states[0]? = some s ∧ (⟨Handle.ofNat 0, 0⟩ : Item) ∈ s.itemSet.items ∧
      g.rightOf (Handle.ofNat 0) = [start] ∧ Ahead g a ⟨Handle.ofNat 0, 1⟩ [.endMarker] := by
  obtain ⟨⟨s, hs, hitems⟩, start', hstart', haccept, hright⟩ := hc.start
  rw [hstart] at hstart'
  cases hstart'
  refine ⟨s, hs, (hitems _).mpr (.kernel (List.mem_singleton_self _)), hright, ?_⟩
  have hcompleted : Item.atEnd g ⟨Handle.ofNat 0, 1⟩ = true := by
    rw [Item.atEnd, hright]
    rfl
  refine Behind.ahead ?_ hcompleted
  show a.Behind g (g.leftOf (Handle.ofNat 0)) [.endMarker]
  rw [haccept]
  exact .accept

end Automaton

namespace Tables

variable {g : Grammar} (wf : g.WellFormed) {a b : Automaton} {tables : Tables}
  (hc : Automaton.Canonical g a) (hsharpens : b.Sharpens a) (hreads : b.Reads g tables)
  (hserves : b.Serves g a)

include hc hsharpens hserves

/-- Where a transition of the canonical collection is wanted, the automaton behind
the tables has it. -/
theorem exists_served {q : Nat} {s : State} (hs : a.states[q]? = some s) {item : Item}
    (hitem : item ∈ s.itemSet.items) {target : SymbolId → StateId}
    (hcomplete : Automaton.CompleteBy g a target s) {x : SymbolId} {move : Move}
    (hprescribes : Automaton.Prescribes g target item x move) {v : List SymbolId}
    (hwanted : ∀ site : Site, a.Wanted g ⟨site, x, move⟩ item v) :
    ∃ (s' : State) (t' : Transition), b.states[q]? = some s' ∧ t' ∈ s'.transitions ∧
      t'.symbol = x ∧ t'.lookahead.Admits v ∧ t'.move.withLookahead .any = move ∧
        b.item t'.origin = .ok item := by
  obtain ⟨position, hposition⟩ := List.mem_iff_getElem?.mp hitem
  let t : Transition := ⟨⟨s.id, position⟩, x, move⟩
  have ht : t ∈ s.transitions := (hcomplete.mem_iff t).mpr ⟨item, rfl, hposition, hprescribes⟩
  obtain ⟨s', hs'⟩ := hsharpens.exists_state hs
  obtain ⟨t', ht', hedge, hadmits⟩ := hserves q s s' t item v hs hs' ht hposition (hwanted _)
  have hmove : t'.move.withLookahead .any = move.withLookahead .any :=
    Transition.move_of_edge hedge
  rw [hprescribes.withLookahead_any] at hmove
  refine ⟨s', t', hs', ht', Transition.symbol_of_edge hedge, hadmits, hmove,
    hsharpens.item_eq ?_⟩
  rw [Transition.origin_of_edge hedge]
  refine Automaton.item_eq_ok.mpr ⟨s, ?_, hposition⟩
  show a.states[s.id.index]? = some s
  rw [hc.index_id q s hs]
  exact hs

include wf hreads

/-- With a terminal behind the dot of an item in the top state, the parser reads it. -/
theorem step_of_shift {q : Nat} {s : State} (hs : a.states[q]? = some s) {item : Item}
    (hitem : item ∈ s.itemSet.items) {x : SymbolId} (hx : item.next? g = some x)
    (hterminal : g.isTerminal x = true) {v : List SymbolId} (hahead : a.Ahead g (item.move 1) v)
    (below rs : List Nat) :
    ∃ (q' : Nat) (s' : State), tables.step? ⟨q :: below, (x :: v).map g.nameOf, rs⟩ =
      some ⟨q' :: q :: below, v.map g.nameOf, rs⟩ ∧ a.states[q']? = some s' ∧
        item.move 1 ∈ s'.itemSet.items := by
  obtain ⟨target, hcomplete⟩ := hc.complete s (List.mem_of_getElem? hs)
  obtain ⟨s₁, hs₁, hitems⟩ := hcomplete.holds x ⟨item, hitem, hx⟩
  obtain ⟨s', t', hs', ht', hsymbol, hadmits, hmove, _⟩ := exists_served hc hsharpens hserves hs
    hitem hcomplete (.shift hx hterminal) (fun _ => hahead)
  have haction : b.action? g t' = .ok (some (.shift (target x).index)) := by
    unfold Automaton.action?
    cases hm : t'.move <;> rw [hm] at hmove <;> cases hmove
    rfl
  have hbelow : ∀ y ∈ v, y.index < g.symbols.length := fun y hy =>
    Grammar.lt_of_isTerminal (hahead.isTerminal wf y hy)
  have hdecide := (hreads.decide_iff q s' x v _ hs' (Grammar.lt_of_isTerminal hterminal)
    hbelow).mpr ⟨t', ht', hsymbol, hadmits, haction⟩
  refine ⟨(target x).index, s₁, ?_, hs₁, (hitems _).mpr (.kernel ?_)⟩
  · rw [step?]
    simp only [List.map_cons, hdecide, List.tail_cons]
  · exact Automaton.mem_movedOver.mpr ⟨item, hitem, hx, rfl⟩

/-- With a complete item in the top state, below which an item waits for the left
side of its rule, the parser reduces. -/
theorem step_of_reduce {r : RuleId} (hr : r.index < g.rules.length) {q p : Nat} {s s₀ : State}
    (hs : a.states[q]? = some s) (hend : ⟨r, (g.rightOf r).length⟩ ∈ s.itemSet.items)
    {above below : List Nat} (hdrop : (q :: above).drop (g.rightOf r).length = p :: below)
    (hs₀ : a.states[p]? = some s₀) {item : Item} (hitem : item ∈ s₀.itemSet.items)
    (hx : item.next? g = some (g.leftOf r)) {v : List SymbolId}
    (hbehind : a.Behind g (g.leftOf r) v) (rs : List Nat) :
    ∃ (q' : Nat) (s' : State), tables.step? ⟨q :: above, v.map g.nameOf, rs⟩ =
      some ⟨q' :: p :: below, v.map g.nameOf, r.index :: rs⟩ ∧ a.states[q']? = some s' ∧
        item.move 1 ∈ s'.itemSet.items := by
  have hleft : g.isNonterminal (g.leftOf r) = true := wf.isNonterminal_leftOf hr
  have hne : r.index ≠ 0 := by
    intro hzero
    have hmem : g.leftOf r ∈ g.rightOf item.rule := List.mem_of_getElem? hx
    exact (wf.mem_rightOf hmem).2.2 ((wf.leftOf_eq_accept hr).mpr hzero)
  -- what the entry under the next symbol says
  obtain ⟨x, rest, rfl, hterminal⟩ := hbehind.exists_cons wf
  have hinput : x ∈ g.terminals ∨ x = .endMarker := by
    have := wf.mem_inputSymbols.mpr hterminal
    rw [Grammar.inputSymbols, List.mem_append, List.mem_singleton] at this
    exact this
  obtain ⟨target, hcomplete⟩ := hc.complete s (List.mem_of_getElem? hs)
  obtain ⟨s', t', hs', ht', hsymbol, hadmits, hmove, horigin⟩ := exists_served hc hsharpens hserves
    hs hend hcomplete (.reduce (beq_self_eq_true _) hne hinput) (fun _ => hbehind)
  have haction : b.action? g t' =
      .ok (some (.reduce r.index (g.nameOf (g.leftOf r)) (g.bindingsOf r))) := by
    unfold Automaton.action?
    cases hm : t'.move <;> rw [hm] at hmove <;> cases hmove
    exact bind_eq_ok.mpr ⟨_, horigin, rfl⟩
  have hbelow : ∀ y ∈ rest, y.index < g.symbols.length := fun y hy =>
    Grammar.lt_of_isTerminal (hbehind.isTerminal wf y (List.mem_cons_of_mem x hy))
  have hdecide := (hreads.decide_iff q s' x rest _ hs' (Grammar.lt_of_isTerminal hterminal)
    hbelow).mpr ⟨t', ht', hsymbol, hadmits, haction⟩
  -- where the state below goes to
  obtain ⟨target₀, hcomplete₀⟩ := hc.complete s₀ (List.mem_of_getElem? hs₀)
  obtain ⟨s₁, hs₁, hitems⟩ := hcomplete₀.holds _ ⟨item, hitem, hx⟩
  obtain ⟨s₀', t₀, hs₀', ht₀, hsymbol₀, _, hmove₀, _⟩ := exists_served hc hsharpens hserves
    hs₀ hitem hcomplete₀ (.goto hx hleft) (v := []) (fun _ => trivial)
  have hgoto : tables.goto? p (g.nameOf (g.leftOf r)) = some (target₀ (g.leftOf r)).index := by
    refine (hreads.goto_iff p s₀' _ _ hs₀' (Grammar.lt_of_isNonterminal hleft)).mpr
      ⟨t₀, ht₀, hsymbol₀, target₀ (g.leftOf r), ?_, rfl⟩
    cases hm : t₀.move <;> rw [hm] at hmove₀ <;> cases hmove₀
    rfl
  refine ⟨(target₀ (g.leftOf r)).index, s₁, ?_, hs₁, (hitems _).mpr (.kernel ?_)⟩
  · rw [step?]
    simp only [List.map_cons, hdecide, wf.length_bindingsOf hr, hdrop, hgoto, Option.map_some]
  · exact Automaton.mem_movedOver.mpr ⟨item, hitem, hx, rfl⟩

/-- With an item in its top state whose rest begins with the roots of a forest, the
parser reads the yield of the forest and reduces by its rules. -/
theorem reaches_of_forest {f : Forest} (hvalid : f.Valid g)
    (hyield : ∀ y ∈ f.yield, g.isTerminal y = true) {q : Nat} {s : State}
    (hs : a.states[q]? = some s) {item : Item} (hitem : item ∈ s.itemSet.items)
    {rest : List SymbolId} (hrest : item.rest g = f.roots g ++ rest) {v : List SymbolId}
    (hahead : a.Ahead g (item.move (f.roots g).length) v) (below rs : List Nat) :
    ∃ (q' : Nat) (above : List Nat) (s' : State),
      tables.Reaches ⟨q :: below, (f.yield ++ v).map g.nameOf, rs⟩
        ⟨q' :: above, v.map g.nameOf, f.postorder.reverse.map Handle.index ++ rs⟩ ∧
      (q' :: above).drop (f.roots g).length = q :: below ∧ a.states[q']? = some s' ∧
        item.move (f.roots g).length ∈ s'.itemSet.items := by
  induction f generalizing q s item rest v below rs with
  | nil => exact ⟨q, below, s, .refl, rfl, hs, hitem⟩
  | leaf x more ih =>
    obtain ⟨hx, hmore⟩ := Item.next?_of_rest hrest
    have hterminal := hyield x List.mem_cons_self
    have hyield : ∀ y ∈ more.yield, g.isTerminal y = true := fun y hy =>
      hyield y (List.mem_cons_of_mem x hy)
    rw [Forest.roots, Item.move_cons] at hahead ⊢
    obtain ⟨q', s', hstep, hs', hitem'⟩ := step_of_shift wf hc hsharpens hreads hserves hs hitem hx
      hterminal (hahead.prepend hmore hvalid hyield) below rs
    obtain ⟨q'', above, s'', hreach, hdrop, hs'', hitem''⟩ :=
      ih hvalid hyield hs' hitem' hmore hahead (q :: below) rs
    refine ⟨q'', above, s'', .head hstep hreach, ?_, hs'', hitem''⟩
    show (q'' :: above).drop ((more.roots g).length + 1) = q :: below
    rw [← List.drop_drop, hdrop]
    rfl
  | node r children more ihc ihr =>
    obtain ⟨hx, hmore⟩ := Item.next?_of_rest hrest
    obtain ⟨hr, hroots, hchildren, hvalid⟩ := hvalid
    have hyield₁ : ∀ y ∈ children.yield, g.isTerminal y = true := fun y hy =>
      hyield y (List.mem_append_left _ hy)
    have hyield₂ : ∀ y ∈ more.yield, g.isTerminal y = true := fun y hy =>
      hyield y (List.mem_append_right _ hy)
    rw [Forest.roots, Item.move_cons] at hahead ⊢
    -- the rule is in the state, and what comes behind its left side is known
    have hfront : (⟨r, 0⟩ : Item) ∈ s.itemSet.items := hc.front_mem wf hs hitem hx hr
    have hbehind : a.Behind g (g.leftOf r) (more.yield ++ v) :=
      hc.behind_of_ahead wf hs hitem hx (hahead.prepend hmore hvalid hyield₂)
    have hchildren_end : a.Ahead g (Item.move ⟨r, 0⟩ (g.rightOf r).length) (more.yield ++ v) :=
      Automaton.Behind.ahead hbehind (beq_iff_eq.mpr (Nat.zero_add _))
    rw [hroots] at ihc
    obtain ⟨q₁, above₁, s₁, hreach₁, hdrop₁, hs₁, hitem₁⟩ :=
      ihc hchildren hyield₁ hs hfront (List.append_nil _).symm hchildren_end below rs
    have hitem₁ : (⟨r, (g.rightOf r).length⟩ : Item) ∈ s₁.itemSet.items := by
      rw [Item.move, Nat.zero_add] at hitem₁
      exact hitem₁
    obtain ⟨q₂, s₂, hstep, hs₂, hitem₂⟩ := step_of_reduce wf hc hsharpens hreads hserves hr hs₁
      hitem₁ hdrop₁ hs hitem hx hbehind (children.postorder.reverse.map Handle.index ++ rs)
    obtain ⟨q₃, above₃, s₃, hreach₃, hdrop₃, hs₃, hitem₃⟩ :=
      ihr hvalid hyield₂ hs₂ hitem₂ hmore hahead (q :: below) _
    refine ⟨q₃, above₃, s₃, ?_, ?_, hs₃, hitem₃⟩
    · have hyield_eq : (Forest.node r children more).yield ++ v =
          children.yield ++ (more.yield ++ v) := List.append_assoc _ _ _
      have hreduced : (Forest.node r children more).postorder.reverse.map Handle.index ++ rs =
          more.postorder.reverse.map Handle.index ++
            r.index :: (children.postorder.reverse.map Handle.index ++ rs) := by
        simp [Forest.postorder]
      rw [hyield_eq, hreduced]
      exact hreach₁.trans (.head hstep hreach₃)
    · show (q₃ :: above₃).drop ((more.roots g).length + 1) = q :: below
      rw [← List.drop_drop, hdrop₃]
      rfl

/-- What has a parse tree is accepted, with the reductions that the tree tells. -/
theorem accepts_of_parses {f : Forest} {w : List SymbolId} (hparses : f.Parses g w)
    (hw : ∀ x ∈ w, g.isTerminal x = true) :
    tables.Accepts (w.map g.nameOf ++ [Symbol.endName])
      (f.postorder.reverse.map Handle.index) := by
  obtain ⟨hvalid, ⟨start, hstart, hroots⟩, rfl⟩ := hparses
  obtain ⟨s, hs, hfront, hright, hahead⟩ := hc.exists_start hstart
  have hcompleted : Item.atEnd g ⟨Handle.ofNat 0, 1⟩ = true := by
    rw [Item.atEnd, hright]
    rfl
  have hrest : Item.rest g ⟨Handle.ofNat 0, 0⟩ = f.roots g ++ [] := by
    rw [hroots, List.append_nil]
    exact hright
  have hahead : a.Ahead g (Item.move ⟨Handle.ofNat 0, 0⟩ (f.roots g).length) [.endMarker] := by
    rw [hroots]
    exact hahead
  obtain ⟨q, above, s', hreach, _, hs', hend⟩ :=
    reaches_of_forest wf hc hsharpens hreads hserves hvalid hw hs hfront hrest hahead [] []
  rw [hroots] at hend
  have hend : (⟨Handle.ofNat 0, 1⟩ : Item) ∈ s'.itemSet.items := hend
  obtain ⟨target, hcomplete⟩ := hc.complete s' (List.mem_of_getElem? hs')
  obtain ⟨s₁, t, hs₁, ht, hsymbol, hadmits, hmove, _⟩ := exists_served hc hsharpens hserves hs'
    hend hcomplete (.accept hcompleted rfl) (v := []) (fun _ => trivial)
  have haccept : t.move = .accept := by
    cases hm : t.move <;> rw [hm] at hmove <;> cases hmove
  have haction : b.action? g t = .ok (some .accept) := by
    rw [Automaton.action?, haccept]
  have hdecide := (hreads.decide_iff q s₁ .endMarker [] .accept hs₁
    (Grammar.lt_of_isTerminal wf.isTerminal_endMarker) fun y hy => absurd hy List.not_mem_nil).mpr
    ⟨t, ht, hsymbol, hadmits, haction⟩
  rw [List.append_nil, List.map_append, List.map_singleton, wf.nameOf_endMarker] at hreach
  rw [List.map_nil, wf.nameOf_endMarker] at hdecide
  exact ⟨_, hreach, Tables.accepts_iff.mpr ⟨q, above, rfl, hdecide⟩, rfl⟩

end Tables

namespace Grammar

/-- The parse tree of two items by `itemList`. -/
def twoItems : Forest :=
  let item : Forest := .node (Handle.ofNat 3) (.leaf (Handle.ofNat 4) .nil) .nil
  let none : Forest := .node (Handle.ofNat 2) .nil item
  .node (Handle.ofNat 1) (.node (Handle.ofNat 1) none item) .nil

theorem tables_itemList : ∃ (g : Grammar) (tables : Tables),
    ofDefinitions itemList = .ok g ∧ g.Fits ∧ g.EqualPriorities ∧
      g.tables .refined = .ok tables ∧ (∀ x ∈ twoItems.yield, x ∈ g.terminals) ∧
        twoItems.Parses g twoItems.yield := by
  obtain ⟨g, hg, h⟩ : ∃ g, ofDefinitions itemList = .ok g ∧
      decide (g.Fits ∧ (∀ rule ∈ g.rules.tail, rule.priority = 0) ∧
        ((g.tables .refined).toOption.any fun _ => true) = true ∧
          (∀ x ∈ twoItems.yield, x ∈ g.terminals) ∧ twoItems.Valid g ∧
            g.start? = some (Handle.ofNat 2) ∧ twoItems.roots g = [Handle.ofNat 2]) = true :=
    exists_ok_of_any (by decide +kernel)
  obtain ⟨fits, hequal, htables, hterminals, hvalid, hstart, hroots⟩ := of_decide_eq_true h
  obtain ⟨tables, htables, _⟩ := exists_ok_of_any htables
  exact ⟨g, tables, hg, fits, ⟨0, hequal⟩, htables, hterminals, hvalid, ⟨_, hstart, hroots⟩, rfl⟩

/-- By the plain method, or without priorities, the tables of a grammar accept all
that the grammar derives. -/
theorem accepts_of_derives {g : Grammar} (built : g.Built) (fits : g.Fits) {method : Method}
    {tables : Tables} (h : g.tables method = .ok tables)
    (hequal : method = .plain ∨ g.EqualPriorities) {start : SymbolId}
    (hstart : g.start? = some start) {w : List SymbolId} (hw : ∀ x ∈ w, x ∈ g.terminals)
    (hderives : g.Derives [start] w) :
    ∃ reduced : List Nat, tables.Accepts (w.map g.nameOf ++ [Symbol.endName]) reduced := by
  have wf := built.wellFormed fits.symbols fits.rules
  obtain ⟨b, hsharpens, hreads, hserves⟩ := wf.exists_reads fits.states h
  obtain ⟨f, hvalid, hroots, hyield⟩ := Forest.exists_of_derives hderives
  exact ⟨_, Tables.accepts_of_parses wf (wf.canonical fits.states) hsharpens hreads
    (hserves hequal) ⟨hvalid, ⟨start, hstart, hroots⟩, hyield⟩ fun x hx =>
      (wf.mem_terminals.mp (hw x hx)).1⟩

theorem accepts_of_derives_itemList : ∃ (g : Grammar) (tables : Tables) (start : SymbolId)
    (reduced : List Nat), ofDefinitions itemList = .ok g ∧ g.tables .refined = .ok tables ∧
      g.start? = some start ∧ g.Derives [start] twoItems.yield ∧
        tables.Accepts (twoItems.yield.map g.nameOf ++ [Symbol.endName]) reduced := by
  obtain ⟨g, tables, hg, fits, hequal, htables, hterminals, hvalid, ⟨start, hstart, hroots⟩, _⟩ :=
    tables_itemList
  have built : g.Built := .ofDefinitions hg
  have wf := built.wellFormed fits.symbols fits.rules
  have hderives := (Forest.rightmost hvalid fun x hx =>
    (wf.mem_terminals.mp (hterminals x hx)).1).derives
  rw [hroots] at hderives
  obtain ⟨reduced, haccepts⟩ :=
    accepts_of_derives built fits htables (Or.inr hequal) hstart hterminals hderives
  exact ⟨g, tables, start, reduced, hg, htables, hstart, hderives, haccepts⟩

/-- A grammar that has tables by the plain method, or without priorities, is
unambiguous: different parse trees of one sentence would have different reductions,
but the parser accepts the sentence in one way. -/
theorem parses_unique {g : Grammar} (built : g.Built) (fits : g.Fits) {method : Method}
    {tables : Tables} (h : g.tables method = .ok tables)
    (hequal : method = .plain ∨ g.EqualPriorities) {w : List SymbolId}
    (hw : ∀ x ∈ w, x ∈ g.terminals) {f f' : Forest} (hf : f.Parses g w)
    (hf' : f'.Parses g w) : f = f' := by
  have wf := built.wellFormed fits.symbols fits.rules
  obtain ⟨b, hsharpens, hreads, hserves⟩ := wf.exists_reads fits.states h
  have hterminals : ∀ x ∈ w, g.isTerminal x = true := fun x hx =>
    (wf.mem_terminals.mp (hw x hx)).1
  have haccepts : ∀ f : Forest, f.Parses g w → tables.Accepts
      (w.map g.nameOf ++ [Symbol.endName]) (f.postorder.reverse.map Handle.index) := fun f hf =>
    Tables.accepts_of_parses wf (wf.canonical fits.states) hsharpens hreads (hserves hequal) hf
      hterminals
  have hreduced := (haccepts f hf).reduced_unique (haccepts f' hf')
  have hpostorder : f.postorder = f'.postorder :=
    List.reverse_inj.mp (List.map_injective_iff.mpr (fun _ _ => Handle.ext) hreduced)
  obtain ⟨hvalid, ⟨start, hstart, hroots⟩, hyield⟩ := hf
  obtain ⟨hvalid', ⟨start', hstart', hroots'⟩, hyield'⟩ := hf'
  rw [hstart] at hstart'
  cases hstart'
  exact Forest.eq_of_postorder wf hvalid hvalid' (hyield ▸ hterminals) (hyield' ▸ hterminals)
    (hroots.trans hroots'.symm) hpostorder

theorem parses_unique_itemList : ∃ (g : Grammar) (tables : Tables),
    ofDefinitions itemList = .ok g ∧ g.tables .refined = .ok tables ∧
      twoItems.Parses g twoItems.yield ∧
        ∀ f : Forest, f.Parses g twoItems.yield → f = twoItems := by
  obtain ⟨g, tables, hg, fits, hequal, htables, hterminals, hparses⟩ := tables_itemList
  refine ⟨g, tables, hg, htables, hparses, fun f hf => ?_⟩
  exact parses_unique (.ofDefinitions hg) fits htables (Or.inr hequal) hterminals hf hparses

end Grammar
end ShiftReduce
