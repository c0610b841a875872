/-
What the parser accepts, the grammar derives.

While the parser runs, its stack is a path through the canonical collection, and
what it has read is the yield of a forest whose roots spell that path and whose
postorder are the reductions made: `Consistent` is that invariant.  It asks nothing
of the tables but that they read as an automaton that sharpens the collection, so
neither lookaheads nor priorities have a part in it.

A reduction finds its children on the stack because of `exists_below`: an item
with its dot at some position stands in a state only above states that spell what
is before the dot.
-/
import ShiftReduce.Proofs.Table.Generated

namespace ShiftReduce

theorem ItemSet.Closure.mem_kernel_of_accept {g : Grammar} (wf : g.WellFormed)
    {kernel : List Item} {item : Item} (h : ItemSet.Closure g kernel item)
    (hzero : item.rule.index = 0) : item ∈ kernel := by
  cases h with
  | kernel hk => exact hk
  | @front parent x r _ hx _ hr =>
    obtain ⟨hlt, hleft⟩ := wf.mem_rulesFor.mp hr
    rw [← hleft, (wf.leftOf_eq_accept hlt).mpr hzero] at hx
    have hmem : SymbolId.accept ∈ g.rightOf parent.rule := List.mem_of_getElem? hx
    exact absurd rfl (wf.mem_rightOf hmem).2.2

namespace Automaton

/-- A stack of states, the last one first, that a path through the automaton from the
first state leaves behind, and the symbols of the path. -/
inductive StackPath (a : Automaton) : List Nat → List SymbolId → Prop
  | base : StackPath a [0] []
  | push {p q : Nat} {below : List Nat} {xs : List SymbolId} {x : SymbolId} :
      StackPath a (p :: below) xs → a.Edge p x q → StackPath a (q :: p :: below) (xs ++ [x])

variable {g : Grammar} {a : Automaton} (hc : Canonical g a)

include hc

/-- In the first state only rule 0 is in the kernel, with its dot in front. -/
theorem Canonical.eq_of_start {s : State} (hs : a.states[0]? = some s) {item : Item}
    (hitem : item ∈ s.itemSet.items) (hdot : item.dot ≠ 0) : False := by
  obtain ⟨⟨s₀, hs₀, hitems⟩, _⟩ := hc.start
  have hs₀ : a.states[0]? = some s₀ := hs₀
  rw [hs] at hs₀
  cases hs₀
  have hmem := ((hitems item).mp hitem).mem_kernel hdot
  rw [List.mem_singleton.mp hmem] at hdot
  exact hdot rfl

/-- Below a state with an item the stack spells what is before the dot, and has the
item with its dot in front at its bottom. -/
theorem StackPath.exists_below {r : RuleId} {n : Nat} {q : Nat} {below : List Nat}
    {xs : List SymbolId} (h : StackPath a (q :: below) xs) {s : State}
    (hs : a.states[q]? = some s) (hitem : (⟨r, n⟩ : Item) ∈ s.itemSet.items) :
    ∃ (ys : List SymbolId) (p : Nat) (more : List Nat) (s₀ : State),
      xs = ys ++ (g.rightOf r).take n ∧ (q :: below).drop n = p :: more ∧
        StackPath a (p :: more) ys ∧ a.states[p]? = some s₀ ∧ ⟨r, 0⟩ ∈ s₀.itemSet.items := by
  induction n generalizing q below xs s with
  | zero => exact ⟨xs, q, below, s, by rw [List.take_zero, List.append_nil], rfl, h, hs, hitem⟩
  | succ n ih =>
    cases h with
    | base => exact absurd (hc.eq_of_start hs hitem (Nat.succ_ne_zero n)) id
    | @push p q below xs x hpath hedge =>
      obtain ⟨s₁, s₂, hs₁, hs₂, _, hitems⟩ := hc.edge hedge
      rw [hs] at hs₂
      cases hs₂
      have hkernel := ((hitems _).mp hitem).mem_kernel (Nat.succ_ne_zero n)
      obtain ⟨⟨r', n'⟩, hi, hx, e⟩ := mem_movedOver.mp hkernel
      obtain ⟨rfl, hdot⟩ := Item.mk.inj e
      obtain rfl : n = n' := Nat.succ.inj hdot
      obtain ⟨ys, p', more, s₀, hxs, hdrop, hbelow, hs₀, hfront⟩ := ih hpath hs₁ hi
      refine ⟨ys, p', more, s₀, ?_, hdrop, hbelow, hs₀, hfront⟩
      have hx : (g.rightOf r)[n]? = some x := hx
      rw [hxs, List.take_add_one, hx, List.append_assoc]
      rfl

theorem StackPath.exists_state {q : Nat} {below : List Nat} {xs : List SymbolId}
    (h : StackPath a (q :: below) xs) : ∃ s, a.states[q]? = some s := by
  cases h with
  | base =>
    obtain ⟨⟨s, hs, _⟩, _⟩ := hc.start
    exact ⟨s, hs⟩
  | push _ hedge =>
    obtain ⟨_, s, _, hs, _⟩ := hc.edge hedge
    exact ⟨s, hs⟩

/-- Rule 0 has its dot in front at the bottom of a stack only. -/
theorem StackPath.eq_base (wf : g.WellFormed) {q : Nat} {below : List Nat} {xs : List SymbolId}
    (h : StackPath a (q :: below) xs) {s : State} (hs : a.states[q]? = some s)
    (hitem : (⟨Handle.ofNat 0, 0⟩ : Item) ∈ s.itemSet.items) : xs = [] := by
  cases h with
  | base => rfl
  | push hpath hedge =>
    obtain ⟨s₁, s₂, _, hs₂, _, hitems⟩ := hc.edge hedge
    rw [hs] at hs₂
    cases hs₂
    have hkernel := ((hitems _).mp hitem).mem_kernel_of_accept wf rfl
    obtain ⟨i, _, _, e⟩ := mem_movedOver.mp hkernel
    exact absurd (congrArg Item.dot e) (Nat.succ_ne_zero i.dot).symm

end Automaton

namespace Tables

variable {g : Grammar} (wf : g.WellFormed) {a b : Automaton} {tables : Tables}
  (hc : Automaton.Canonical g a) (hsharpens : b.Sharpens a) (hreads : b.Reads g tables)

/-- What is so while the parser runs on a sentence: what was read is the yield of a
forest, whose roots are on the stack and whose rules have been reduced by. -/
def Consistent (g : Grammar) (a : Automaton) (w : List SymbolId) (c : Configuration) : Prop :=
  ∃ (f : Forest) (left : List SymbolId), f.Valid g ∧ a.StackPath c.stack (f.roots g) ∧
    c.input = left.map g.nameOf ∧ f.yield ++ left = w ++ [.endMarker] ∧
      c.reduced = f.postorder.reverse.map Handle.index

section Input

variable {w : List SymbolId} (hw : ∀ x ∈ w, x ∈ g.terminals)

include wf hw

theorem lt_of_mem_left {xs left : List SymbolId} (h : xs ++ left = w ++ [.endMarker]) :
    ∀ y ∈ left, y.index < g.symbols.length := by
  intro y hy
  have hmem : y ∈ w ++ [.endMarker] := h ▸ List.mem_append_right xs hy
  rcases List.mem_append.mp hmem with hmem | hmem
  · exact Grammar.lt_of_isTerminal (wf.mem_terminals.mp (hw y hmem)).1
  · rw [List.mem_singleton.mp hmem]
    exact Grammar.lt_of_isTerminal wf.isTerminal_endMarker

end Input

include hc hsharpens

/-- What the automaton behind the tables does, the canonical collection does. -/
theorem exists_before {q : Nat} {s : State} (hs : a.states[q]? = some s) {s' : State}
    (hs' : b.states[q]? = some s') {t' : Transition} (ht' : t' ∈ s'.transitions) :
    ∃ t ∈ s.transitions, t.symbol = t'.symbol ∧ t.target? = t'.target? ∧
      ∃ (target : SymbolId → StateId) (item : Item), b.item t'.origin = .ok item ∧
        item ∈ s.itemSet.items ∧
          Automaton.Prescribes g target item t'.symbol (t'.move.withLookahead .any) := by
  obtain ⟨t, ht, hedge⟩ := hsharpens.exists_stem hs hs' ht'
  obtain ⟨target, item, _, hitem, hposition, hprescribes⟩ := hc.prescribes_of_mem hs ht
  rw [← Transition.origin_of_edge hedge] at hitem
  refine ⟨t, ht, (Transition.symbol_of_edge hedge).symm, ?_, target, item,
    hsharpens.item_eq hitem, List.mem_of_getElem? hposition, ?_⟩
  · rw [← t.target?_edge, ← hedge, t'.target?_edge]
  · rw [Transition.move_of_edge hedge, hprescribes.withLookahead_any,
      Transition.symbol_of_edge hedge]
    exact hprescribes

include hreads

/-- What the tables say, some item of the canonical collection accounts for. -/
theorem exists_of_decide {q : Nat} {s : State} (hs : a.states[q]? = some s) {x : SymbolId}
    {rest : List SymbolId} (hbelow : ∀ y ∈ x :: rest, y.index < g.symbols.length)
    {action : Action} (h : tables.decide? q ((x :: rest).map g.nameOf) = some action) :
    ∃ t' : Transition, b.action? g t' = .ok (some action) ∧
      (∃ t ∈ s.transitions, t.symbol = x ∧ t.target? = t'.target?) ∧
      ∃ (target : SymbolId → StateId) (item : Item), b.item t'.origin = .ok item ∧
        item ∈ s.itemSet.items ∧
          Automaton.Prescribes g target item x (t'.move.withLookahead .any) := by
  obtain ⟨s', hs'⟩ := hsharpens.exists_state hs
  obtain ⟨hx, hrest⟩ := List.forall_mem_cons.mp hbelow
  obtain ⟨t', ht', rfl, _, haction⟩ := (hreads.decide_iff q s' x rest _ hs' hx hrest).mp h
  obtain ⟨t, ht, hsymbol, htarget, hitem⟩ := exists_before hc hsharpens hs hs' ht'
  exact ⟨t', haction, ⟨t, ht, hsymbol, htarget⟩, hitem⟩

/-- Where the tables say to shift, an edge of the canonical collection leads on. -/
theorem edge_of_shift {q : Nat} {s : State} (hs : a.states[q]? = some s) {x : SymbolId}
    {rest : List SymbolId} (hbelow : ∀ y ∈ x :: rest, y.index < g.symbols.length) {next : Nat}
    (h : tables.decide? q ((x :: rest).map g.nameOf) = some (.shift next)) : a.Edge q x next := by
  obtain ⟨t', haction, ⟨t, ht, hsymbol, htarget⟩, _⟩ :=
    exists_of_decide hc hsharpens hreads hs hbelow h
  obtain ⟨target, l, hmove, rfl⟩ := Automaton.of_action?_shift haction
  refine ⟨s, t, target, hs, ht, hsymbol, ?_, rfl⟩
  rw [htarget, Transition.target?, hmove]
  rfl

/-- Where the tables say to reduce by a rule, its item is complete. -/
theorem complete_of_reduce {q : Nat} {s : State} (hs : a.states[q]? = some s) {x : SymbolId}
    {rest : List SymbolId} (hbelow : ∀ y ∈ x :: rest, y.index < g.symbols.length) {rule : Nat}
    {left : String} {symbols : List (Option String)}
    (h : tables.decide? q ((x :: rest).map g.nameOf) = some (.reduce rule left symbols)) :
    ∃ r : RuleId, (⟨r, (g.rightOf r).length⟩ : Item) ∈ s.itemSet.items ∧ rule = r.index ∧
      left = g.nameOf (g.leftOf r) ∧ symbols = g.bindingsOf r := by
  obtain ⟨t', haction, _, target, item, hitem, hmem, hprescribes⟩ :=
    exists_of_decide hc hsharpens hreads hs hbelow h
  obtain ⟨l, item', hmove, hitem', rfl, rfl, rfl⟩ := Automaton.of_action?_reduce haction
  rw [hitem] at hitem'
  cases hitem'
  rw [hmove] at hprescribes
  obtain ⟨r, n⟩ := item
  have hend : n = (g.rightOf r).length := beq_iff_eq.mp hprescribes.of_reduce.1
  exact ⟨r, hend ▸ hmem, rfl, rfl, rfl⟩

theorem complete_of_accept {q : Nat} {s : State} (hs : a.states[q]? = some s) {x : SymbolId}
    {rest : List SymbolId} (hbelow : ∀ y ∈ x :: rest, y.index < g.symbols.length)
    (h : tables.decide? q ((x :: rest).map g.nameOf) = some .accept) :
    (⟨Handle.ofNat 0, 1⟩ : Item) ∈ s.itemSet.items ∧ x = .endMarker := by
  obtain ⟨t', haction, _, target, item, _, hmem, hprescribes⟩ :=
    exists_of_decide hc hsharpens hreads hs hbelow h
  rw [Automaton.of_action?_accept haction] at hprescribes
  obtain ⟨hend, hzero, hmarker⟩ := hprescribes.of_accept
  obtain ⟨_, start, _, _, hright⟩ := hc.start
  obtain ⟨r, n⟩ := item
  obtain rfl : r = Handle.ofNat 0 := Handle.ext hzero
  have hend : n = (g.rightOf (Handle.ofNat 0)).length := beq_iff_eq.mp hend
  obtain rfl : n = 1 := by rw [hend, hright, List.length_singleton]
  exact ⟨hmem, hmarker⟩

theorem edge_of_goto {p : Nat} {s : State} (hs : a.states[p]? = some s) {x : SymbolId}
    (hx : x.index < g.symbols.length) {q : Nat} (h : tables.goto? p (g.nameOf x) = some q) :
    a.Edge p x q := by
  obtain ⟨s', hs'⟩ := hsharpens.exists_state hs
  obtain ⟨t', ht', rfl, target, hmove, rfl⟩ := (hreads.goto_iff p s' x q hs' hx).mp h
  obtain ⟨t, ht, hsymbol, htarget, _⟩ := exists_before hc hsharpens hs hs' ht'
  refine ⟨s, t, target, hs, ht, hsymbol, ?_, rfl⟩
  rw [htarget, Transition.target?, hmove]
  rfl

include wf

variable {w : List SymbolId} (hw : ∀ x ∈ w, x ∈ g.terminals)

include hw

/-- A step keeps things so: a symbol read is a new leaf, and a reduction makes the
last trees the children of a new node. -/
theorem Consistent.step {c d : Configuration} (h : Consistent g a w c)
    (hstep : tables.step? c = some d) : Consistent g a w d := by
  obtain ⟨stack, input, reduced⟩ := c
  obtain ⟨f, left, hvalid, hstack, hinput, hread, hreduced⟩ := h
  obtain ⟨q, below, rfl, hcases⟩ := step?_eq_some hstep
  obtain ⟨s, hs⟩ := hstack.exists_state hc
  have hinput : input = left.map g.nameOf := hinput
  have hreduced : reduced = f.postorder.reverse.map Handle.index := hreduced
  subst hinput hreduced
  have hbelow := lt_of_mem_left wf hw hread
  cases left with
  | nil =>
    rcases hcases with ⟨next, hdecide, _⟩ | ⟨_, _, _, _, _, _, hdecide, _⟩
    · cases hdecide
    · cases hdecide
  | cons x rest =>
    rcases hcases with ⟨next, hdecide, rfl⟩ |
      ⟨rule, name, symbols, top, more, next, hdecide, hdrop, hgoto, rfl⟩
    · have hedge := edge_of_shift hc hsharpens hreads hs hbelow hdecide
      refine ⟨f.append (.leaf x .nil), rest, ?_, ?_, rfl, ?_, ?_⟩
      · exact Forest.valid_append.mpr ⟨hvalid, trivial⟩
      · rw [Forest.roots_append]
        exact hstack.push hedge
      · rw [Forest.yield_append, List.append_assoc]
        exact hread
      · rw [Forest.postorder_append, Forest.postorder, Forest.postorder, List.append_nil]
    · obtain ⟨r, hitem, rfl, rfl, rfl⟩ :=
        complete_of_reduce hc hsharpens hreads hs hbelow hdecide
      have hr : r.index < g.rules.length := (hc.belongsTo wf hs _ hitem).1
      -- the children of the new node
      obtain ⟨ys, p, more', s₀, hroots, hdrop', hpath, hs₀, _⟩ := hstack.exists_below hc hs hitem
      rw [List.take_length] at hroots
      obtain ⟨front, back, rfl, hfront, hback⟩ := Forest.exists_append_of_roots hroots
      obtain ⟨hvalid₁, hvalid₂⟩ := Forest.valid_append.mp hvalid
      -- the state below them
      rw [wf.length_bindingsOf hr, hdrop'] at hdrop
      cases hdrop
      have hedge := edge_of_goto hc hsharpens hreads hs₀
        (Grammar.lt_of_isNonterminal (wf.isNonterminal_leftOf hr)) hgoto
      refine ⟨front.append (.node r back .nil), x :: rest, ?_, ?_, rfl, ?_, ?_⟩
      · exact Forest.valid_append.mpr ⟨hvalid₁, hr, hback, hvalid₂, trivial⟩
      · rw [Forest.roots_append, hfront]
        exact hpath.push hedge
      · rw [Forest.yield_append] at hread ⊢
        rw [Forest.yield, Forest.yield, List.append_nil]
        exact hread
      · rw [Forest.postorder_append, Forest.postorder_append, Forest.postorder, Forest.postorder,
          ← List.append_assoc, List.reverse_concat]
        rfl

theorem Consistent.of_reaches {c : Configuration}
    (h : tables.Reaches (start ((w ++ [SymbolId.endMarker]).map g.nameOf)) c) :
    Consistent g a w c := by
  induction h with
  | refl => exact ⟨.nil, _, trivial, .base, rfl, rfl, rfl⟩
  | tail _ hstep ih => exact ih.step wf hc hsharpens hreads hw hstep

/-- Where the parser accepts, the whole sentence was read and has a parse tree. -/
theorem Consistent.exists_parses {c : Configuration} (h : Consistent g a w c)
    (haccepts : tables.accepts c = true) :
    ∃ f : Forest, f.Parses g w ∧ c.reduced = f.postorder.reverse.map Handle.index := by
  obtain ⟨f, left, hvalid, hstack, hinput, hread, hreduced⟩ := h
  obtain ⟨q, below, hq, hdecide⟩ := accepts_iff.mp haccepts
  rw [hq] at hstack
  rw [hinput] at hdecide
  obtain ⟨s, hs⟩ := hstack.exists_state hc
  cases left with
  | nil => cases hdecide
  | cons x rest =>
    have hbelow := lt_of_mem_left wf hw hread
    obtain ⟨hitem, rfl⟩ := complete_of_accept hc hsharpens hreads hs hbelow hdecide
    obtain ⟨_, start, hstart, _, hright⟩ := hc.start
    -- the stack is the bottom and the state behind the start symbol
    obtain ⟨ys, p, more, s₀, hroots, _, hpath, hs₀, hfront⟩ := hstack.exists_below hc hs hitem
    rw [hpath.eq_base hc wf hs₀ hfront, hright] at hroots
    -- the end marker ahead is the one behind the sentence
    have hnone : SymbolId.endMarker ∉ w := fun hmem => (wf.mem_terminals.mp (hw _ hmem)).2 rfl
    have hyield : f.yield = w := by
      rcases List.append_eq_append_iff.mp hread with ⟨between, hbetween, hmarker⟩ |
        ⟨between, hbetween, hmarker⟩
      · cases between with
        | nil => exact (hbetween.trans (List.append_nil _)).symm
        | cons y between =>
          rw [← (List.cons.inj hmarker).1] at hbetween
          rw [hbetween] at hnone
          exact absurd (List.mem_append_right _ List.mem_cons_self) hnone
      · cases between with
        | nil => exact hbetween.trans (List.append_nil _)
        | cons y between =>
          have hnil := (List.cons.inj hmarker).2
          exact absurd hnil.symm (List.append_ne_nil_of_right_ne_nil _ (List.cons_ne_nil _ _))
    exact ⟨f, ⟨hvalid, ⟨start, hstart, hroots⟩, hyield⟩, hreduced⟩

end Tables

namespace Grammar

/-- Statements with a branch that may be left out, `stmt ::= if stmt | if stmt else stmt | x`,
of which the longer form has priority. -/
def branching : List Bnf.Definition :=
  [⟨"stmt", [⟨[⟨"if", none⟩, ⟨"stmt", none⟩], 0⟩,
    ⟨[⟨"if", none⟩, ⟨"stmt", none⟩, ⟨"else", none⟩, ⟨"stmt", none⟩], 1⟩, ⟨[⟨"x", none⟩], 0⟩]⟩]

/-- The sentence `if if x else x` of `branching`. -/
def nested : List SymbolId := [3, 3, 5, 4, 5].map Handle.ofNat

/-- What tables of a grammar accept, the grammar derives: backwards, the rules
reduced by are a rightmost derivation. -/
theorem derives_of_accepts {g : Grammar} (built : g.Built) (fits : g.Fits) {method : Method}
    {tables : Tables} (h : g.tables method = .ok tables) {w : List SymbolId}
    (hw : ∀ x ∈ w, x ∈ g.terminals) {reduced : List Nat}
    (haccepts : tables.Accepts (w.map g.nameOf ++ [Symbol.endName]) reduced) :
    ∃ (start : SymbolId) (rules : List RuleId), g.start? = some start ∧
      g.Derives [start] w ∧ g.Rightmost rules [start] w ∧ reduced = rules.map Handle.index := by
  have wf := built.wellFormed fits.symbols fits.rules
  have hc := wf.canonical fits.states
  obtain ⟨b, hsharpens, hreads, _⟩ := wf.exists_reads fits.states h
  obtain ⟨c, hreach, haccept, rfl⟩ := haccepts
  rw [← wf.nameOf_endMarker, ← List.map_singleton, ← List.map_append] at hreach
  have hconsistent := Tables.Consistent.of_reaches wf hc hsharpens hreads hw hreach
  obtain ⟨f, ⟨hvalid, ⟨start, hstart, hroots⟩, rfl⟩, hreduced⟩ :=
    hconsistent.exists_parses wf hc hsharpens hreads hw haccept
  have hrightmost := Forest.rightmost hvalid fun x hx => (wf.mem_terminals.mp (hw x hx)).1
  rw [hroots] at hrightmost
  exact ⟨start, f.postorder.reverse, hstart, hrightmost.derives, hrightmost, hreduced⟩

/-- With `if if x else x` the branch left out is the outer one. -/
theorem derives_of_accepts_branching : ∃ (g : Grammar) (tables : Tables) (rules : List RuleId),
    ofDefinitions branching = .ok g ∧ g.tables .refined = .ok tables ∧
      tables.Accepts ["if", "if", "x", "else", "x", "$end"] [1, 2, 3, 3] ∧
        rules.map Handle.index = [1, 2, 3, 3] ∧
          g.Rightmost rules [Handle.ofNat 2] nested := by
  obtain ⟨g, hg, h⟩ : ∃ g, ofDefinitions branching = .ok g ∧
      decide (g.Fits ∧ g.start? = some (Handle.ofNat 2) ∧
        (∀ x ∈ nested, x ∈ g.terminals) ∧
          nested.map g.nameOf = ["if", "if", "x", "else", "x"] ∧
            ((g.tables .refined).toOption.any fun tables =>
              tables.run? 20 (Tables.start ["if", "if", "x", "else", "x", "$end"]) ==
                some [1, 2, 3, 3]) = true) = true := exists_ok_of_any (by decide +kernel)
  obtain ⟨fits, hstart, hterminals, hnames, htables⟩ := of_decide_eq_true h
  obtain ⟨tables, htables, hrun⟩ := exists_ok_of_any htables
  have haccepts := Tables.accepts_of_run? (beq_iff_eq.mp hrun)
  have haccepts' : tables.Accepts (nested.map g.nameOf ++ [Symbol.endName]) [1, 2, 3, 3] := by
    rw [hnames]
    exact haccepts
  obtain ⟨start, rules, hstart', _, hrightmost, hreduced⟩ :=
    derives_of_accepts (.ofDefinitions hg) fits htables hterminals haccepts'
  rw [hstart] at hstart'
  cases hstart'
  exact ⟨g, tables, rules, hg, htables, haccepts, hreduced.symm, hrightmost⟩

end Grammar
end ShiftReduce
