/-
Nothing goes wrong while the parser runs.

Whatever the input, the parser never looks for a row that the tables do not have,
never takes the first state off its stack, always finds where to go on after a
reduction, and accepts with one state above the first only.  It can still be stuck,
and the input is then refused, but for one reason: its top state has no entry for what
is ahead.  `Tables.Safe` says this of one configuration, and `safe_of_reaches` that it
is so whenever tables were generated from a grammar.

A reduction finds its goto because its rule began, with its dot in front, in the state
that it uncovers.  An item of that state waits for the left side of the rule, so a goto
leads on from there, and no pass of a refinement takes a goto away.
-/
import ShiftReduce.Proofs.Refinement.Settling
import ShiftReduce.Proofs.Parser.Continuation

namespace ShiftReduce

namespace Automaton

theorem StackPath.eq_singleton {a : Automaton} {stack : List Nat} (h : a.StackPath stack []) :
    stack = [0] := by
  generalize hxs : ([] : List SymbolId) = xs at h
  cases h with
  | base => rfl
  | @push _ _ _ ys y =>
    exact absurd hxs.symm (List.concat_ne_nil y ys)

variable {g : Grammar} {a : Automaton} (hc : Canonical g a)

section Stack

include hc

theorem StackPath.lt_size {stack : List Nat} {xs : List SymbolId} (h : a.StackPath stack xs) :
    ∀ q ∈ stack, q < a.size := by
  induction h with
  | base =>
    obtain ⟨s, hs, _⟩ := hc.start.1
    exact List.forall_mem_singleton.mpr (List.getElem?_eq_some_iff.mp hs).1
  | push _ hedge ih =>
    obtain ⟨_, _, _, hs, _⟩ := hc.edge hedge
    exact List.forall_mem_cons.mpr ⟨(List.getElem?_eq_some_iff.mp hs).1, ih⟩

/-- The first state is at the bottom of a stack and nowhere else: its kernel is the
front of rule 0, and no edge leads to that. -/
theorem StackPath.exists_above (wf : g.WellFormed) {stack : List Nat} {xs : List SymbolId}
    (h : a.StackPath stack xs) : ∃ above : List Nat, stack = above ++ [0] ∧ 0 ∉ above := by
  induction h with
  | base => exact ⟨[], rfl, List.not_mem_nil⟩
  | @push p q below xs x hpath hedge ih =>
    obtain ⟨above, hsplit, hzero⟩ := ih
    refine ⟨q :: above, by rw [hsplit, List.cons_append], ?_⟩
    rw [List.mem_cons, not_or]
    refine ⟨?_, hzero⟩
    rintro rfl
    obtain ⟨s, hs, hitems⟩ := hc.start.1
    have hfront : (⟨Handle.ofNat 0, 0⟩ : Item) ∈ s.itemSet.items :=
      (hitems _).mpr (.kernel (List.mem_singleton_self _))
    have hnil := (hpath.push hedge).eq_base hc wf hs hfront
    exact List.concat_ne_nil x xs hnil

/-- Where a rule begins, an edge on its left side leads on. -/
theorem Canonical.exists_edge_leftOf (wf : g.WellFormed) {p : Nat} {xs : List SymbolId}
    (hpath : a.Path 0 xs p) {s : State} (hs : a.states[p]? = some s) {r : RuleId}
    (hitem : (⟨r, 0⟩ : Item) ∈ s.itemSet.items) (hr : r.index ≠ 0) :
    ∃ q, a.Edge p (g.leftOf r) q := by
  obtain ⟨s', hs', hitems⟩ := hc.mem_items_iff_viable wf hpath
  rw [hs] at hs'
  cases hs'
  obtain ⟨parent, hparent, hx⟩ := ((hitems _).mp hitem).exists_waiting hr
  obtain ⟨target, hcomplete⟩ := hc.complete s (List.mem_of_getElem? hs)
  obtain ⟨t, ht, hsymbol, hto⟩ :=
    hcomplete.exists_transition wf ((hitems parent).mpr hparent) hx
  exact ⟨(target (g.leftOf r)).index, s, t, _, hs, ht, hsymbol, hto, rfl⟩

theorem Canonical.exists_goto {p q : Nat} {x : SymbolId} (h : a.Edge p x q)
    (hx : g.isNonterminal x = true) {s : State} (hs : a.states[p]? = some s) :
    ∃ t ∈ s.transitions, t.symbol = x ∧ ∃ target, t.move = .goto target ∧ target.index = q := by
  obtain ⟨s', t, id, hs', ht, rfl, hto, rfl⟩ := h
  rw [hs] at hs'
  cases hs'
  obtain ⟨target, item, _, _, _, hprescribes⟩ := hc.prescribes_of_mem hs ht
  refine ⟨t, ht, rfl, id, ?_, rfl⟩
  unfold Transition.target? at hto
  cases hm : t.move with
  | shift id' l =>
    rw [hm] at hprescribes
    have hterminal := hprescribes.of_shift.2.1
    rw [Grammar.isTerminal_of_isNonterminal hx] at hterminal
    cases hterminal
  | goto id' =>
    rw [hm] at hto
    cases hto
    rfl
  | reduce l =>
    rw [hm] at hto
    cases hto
  | accept =>
    rw [hm] at hto
    cases hto

end Stack

/-- What has the gotos of another automaton: no transition without a lookahead is
missing. -/
def KeepsGotos (b a : Automaton) : Prop :=
  Reworked (fun ts ts' => ∀ t ∈ ts, t.move.carriesLookahead = false → t ∈ ts') a b

theorem keepsGotos_self (a : Automaton) : KeepsGotos a a :=
  List.forall₂_same.mpr fun _ _ => ⟨rfl, rfl, fun _ ht _ => ht⟩

theorem keepsGotos_refine {b : Automaton} {events : List Event}
    (h : a.refine g = .ok (b, events)) : KeepsGotos b a := by
  obtain ⟨v, _, hrefined⟩ := refine_eq_ok h
  exact hrefined.imp fun _ _ ⟨hid, hset, hrefined⟩ =>
    ⟨hid, hset, fun _ ht hb => Refinement.mem_refined_of_bystander hrefined ht hb⟩

end Automaton

namespace Grammar

/-- The tables go where the gotos of the canonical collection go. -/
theorem WellFormed.goto_of_edge {g : Grammar} (wf : g.WellFormed)
    (hsize : (Automaton.build g).size < handleSpan) {method : Method} {tables : Tables}
    (h : g.tables method = .ok tables) {p q : Nat} {x : SymbolId}
    (hedge : (Automaton.build g).Edge p x q) (hx : g.isNonterminal x = true) :
    tables.goto? p (g.nameOf x) = some q := by
  have hc := wf.canonical hsize
  obtain ⟨b, hb, hsharpens, hreads, _⟩ := wf.exists_behind hsize h
  have hkeeps : b.KeepsGotos (.build g) := by
    rcases hb with ⟨_, rfl⟩ | ⟨_, events, hrefine⟩
    · exact Automaton.keepsGotos_self _
    · exact Automaton.keepsGotos_refine hrefine
  obtain ⟨s, _, hs, _⟩ := hc.edge hedge
  obtain ⟨t, ht, hsymbol, target, hmove, hindex⟩ := hc.exists_goto hedge hx hs
  obtain ⟨s', hs'⟩ := hsharpens.exists_state hs
  have ht' : t ∈ s'.transitions := (hkeeps.at hs hs').2.2 t ht (by rw [hmove]; rfl)
  exact (hreads.goto_iff p s' x q hs' (lt_of_isNonterminal hx)).mpr
    ⟨t, ht', hsymbol, target, hmove, hindex⟩

end Grammar

namespace Tables

/-- Nothing can go wrong in a configuration but that there is no entry. -/
structure Safe (t : Tables) (c : Configuration) : Prop where
  /-- Every state on the stack has its rows. -/
  below : ∀ q ∈ c.stack, q < t.action.length
  /-- The first state is at the bottom. -/
  bottom : c.stack.getLast? = some 0
  /-- A reduction leaves the first state alone, and a goto leads on from the state that
  it uncovers. -/
  reduce : ∀ (q : Nat) (below : List Nat) (rule : Nat) (left : String)
    (symbols : List (Option String)), c.stack = q :: below →
      t.decide? q c.input = some (.reduce rule left symbols) →
        0 ∉ c.stack.take symbols.length ∧ ∃ (top : Nat) (more : List Nat) (next : Nat),
          c.stack.drop symbols.length = top :: more ∧ t.goto? top left = some next
  /-- One state is above the first when the parser accepts. -/
  accept : t.accepts c = true → ∃ q, c.stack = [q, 0]
  /-- Without an entry for what is ahead, and only then, the parser is stuck. -/
  stuck : t.step? c = none → t.accepts c = true ∨
    ∃ (q : Nat) (below : List Nat) (x : String) (rest : List String),
      c.stack = q :: below ∧ c.input = x :: rest ∧ t.decide? q c.input = none

section Run

variable {g : Grammar} (wf : g.WellFormed) {a b : Automaton} {tables : Tables}
  (hc : Automaton.Canonical g a) (hsharpens : b.Sharpens a) (hreads : b.Reads g tables)

include hc hsharpens hreads

theorem ne_zero_of_reduce {q : Nat} {s : State} (hs : a.states[q]? = some s) {x : SymbolId}
    {rest : List SymbolId} (hbelow : ∀ y ∈ x :: rest, y.index < g.symbols.length) {rule : Nat}
    {left : String} {symbols : List (Option String)}
    (h : tables.decide? q ((x :: rest).map g.nameOf) = some (.reduce rule left symbols)) :
    rule ≠ 0 := by
  obtain ⟨t', haction, _, target, item, hitem, _, hprescribes⟩ :=
    exists_of_decide hc hsharpens hreads hs hbelow h
  obtain ⟨l, item', hmove, hitem', rfl, _, _⟩ := Automaton.of_action?_reduce haction
  rw [hitem] at hitem'
  cases hitem'
  rw [hmove] at hprescribes
  exact hprescribes.of_reduce.2

variable {w : List SymbolId} (hw : ∀ x ∈ w, x ∈ g.terminals) {c : Configuration}
  (h : Consistent g a w c)

include wf hw h

omit hsharpens hreads in
/-- Where the tables decide, the top state is one of the collection and the symbols ahead are
those of the grammar. -/
theorem Consistent.of_decide {q : Nat} {below : List Nat} (hq : c.stack = q :: below)
    {action : Action} (hdecide : tables.decide? q c.input = some action) :
    ∃ (xs : List SymbolId) (s : State) (x : SymbolId) (rest : List SymbolId),
      a.StackPath (q :: below) xs ∧ a.states[q]? = some s ∧
        c.input = (x :: rest).map g.nameOf ∧ ∀ y ∈ x :: rest, y.index < g.symbols.length := by
  obtain ⟨f, ahead, _, hstack, hinput, hread, _⟩ := h
  rw [hq] at hstack
  obtain ⟨s, hs⟩ := hstack.exists_state hc
  have hbelow := lt_of_mem_left wf hw hread
  cases ahead with
  | nil =>
    rw [hinput] at hdecide
    cases hdecide
  | cons x rest => exact ⟨_, s, x, rest, hstack, hs, hinput, hbelow⟩

/-- A reduction takes off states above the first one and uncovers the state where its
rule began. -/
theorem Consistent.exists_uncovered {q : Nat} {below : List Nat} (hq : c.stack = q :: below)
    {rule : Nat} {left : String} {symbols : List (Option String)}
    (hdecide : tables.decide? q c.input = some (.reduce rule left symbols)) :
    0 ∉ c.stack.take symbols.length ∧ ∃ (r : RuleId) (top next : Nat) (more : List Nat),
      left = g.nameOf (g.leftOf r) ∧ g.isNonterminal (g.leftOf r) = true ∧
        c.stack.drop symbols.length = top :: more ∧ a.Edge top (g.leftOf r) next := by
  obtain ⟨xs, s, x, rest, hstack, hs, hinput, hbelow⟩ := h.of_decide wf hc hw hq hdecide
  rw [hinput] at hdecide
  have hne := ne_zero_of_reduce hc hsharpens hreads hs hbelow hdecide
  obtain ⟨r, hitem, rfl, rfl, rfl⟩ := complete_of_reduce hc hsharpens hreads hs hbelow hdecide
  have hr : r.index < g.rules.length := (hc.belongsTo wf hs _ hitem).1
  obtain ⟨ys, p, more, s₀, _, hdrop, hpath, hs₀, hfront⟩ := hstack.exists_below hc hs hitem
  obtain ⟨next, hedge⟩ := hc.exists_edge_leftOf wf hpath.path hs₀ hfront hne
  rw [wf.length_bindingsOf hr, hq]
  refine ⟨?_, r, p, next, more, rfl, wf.isNonterminal_leftOf hr, hdrop, hedge⟩
  -- the first state is under the one uncovered, or that is the one
  obtain ⟨above, hsplit, hzero⟩ := hstack.exists_above hc wf
  obtain ⟨above', hsplit', _⟩ := hpath.exists_above hc wf
  have hwhole : (q :: below).take (g.rightOf r).length ++ above' ++ [0] = above ++ [0] := by
    rw [List.append_assoc, ← hsplit', ← hdrop, List.take_append_drop, hsplit]
  have habove := List.append_cancel_right hwhole
  intro hmem
  exact hzero (habove ▸ List.mem_append_left above' hmem)

/-- The parser accepts right behind the start symbol. -/
theorem Consistent.stack_of_accepts (haccepts : tables.accepts c = true) :
    ∃ q, c.stack = [q, 0] := by
  obtain ⟨q, below, hq, hdecide⟩ := accepts_iff.mp haccepts
  obtain ⟨xs, s, x, rest, hstack, hs, hinput, hbelow⟩ := h.of_decide wf hc hw hq hdecide
  rw [hinput] at hdecide
  obtain ⟨hitem, _⟩ := complete_of_accept hc hsharpens hreads hs hbelow hdecide
  obtain ⟨ys, p, more, s₀, _, hdrop, hpath, hs₀, hfront⟩ := hstack.exists_below hc hs hitem
  rw [hpath.eq_base hc wf hs₀ hfront] at hpath
  rw [hpath.eq_singleton] at hdrop
  exact ⟨q, hq.trans (congrArg (List.cons q) hdrop)⟩

/-- What is ahead decides for a shift, a reduction or acceptance, and never for a table to
look further ahead in. -/
theorem Consistent.isPlain {q : Nat} {below : List Nat} (hq : c.stack = q :: below)
    {action : Action} (hdecide : tables.decide? q c.input = some action) :
    action.isPlain = true := by
  obtain ⟨_, s, x, rest, _, hs, hinput, hbelow⟩ := h.of_decide wf hc hw hq hdecide
  rw [hinput] at hdecide
  obtain ⟨_, haction, _⟩ := exists_of_decide hc hsharpens hreads hs hbelow hdecide
  exact Automaton.isPlain_of_action? haction

variable (hgotos : ∀ (p q : Nat) (x : SymbolId), a.Edge p x q → g.isNonterminal x = true →
  tables.goto? p (g.nameOf x) = some q)

include hgotos

theorem Consistent.exists_goto {q : Nat} {below : List Nat} (hq : c.stack = q :: below)
    {rule : Nat} {left : String} {symbols : List (Option String)}
    (hdecide : tables.decide? q c.input = some (.reduce rule left symbols)) :
    0 ∉ c.stack.take symbols.length ∧ ∃ (top : Nat) (more : List Nat) (next : Nat),
      c.stack.drop symbols.length = top :: more ∧ tables.goto? top left = some next := by
  obtain ⟨hzero, r, top, next, more, rfl, hnonterminal, hdrop, hedge⟩ :=
    h.exists_uncovered wf hc hsharpens hreads hw hq hdecide
  exact ⟨hzero, top, more, next, hdrop, hgotos top next _ hedge hnonterminal⟩

/-- The parser goes on or accepts, unless its top state has no entry for what is ahead. -/
theorem Consistent.accepts_or_of_stuck (hstuck : tables.step? c = none) :
    tables.accepts c = true ∨ ∃ (q : Nat) (below : List Nat) (x : String) (rest : List String),
      c.stack = q :: below ∧ c.input = x :: rest ∧ tables.decide? q c.input = none := by
  have hstack : ∃ xs, a.StackPath c.stack xs := by
    obtain ⟨f, _, _, hstack, _⟩ := h
    exact ⟨_, hstack⟩
  obtain ⟨_, hstack⟩ := hstack
  cases hq : c.stack with
  | nil =>
    rw [hq] at hstack
    cases hstack
  | cons q below =>
    cases hdecide : tables.decide? q c.input with
    | none =>
      obtain ⟨_, _, left, _, _, _, hinput, _⟩ := h.continuation wf hc hw
      right
      cases left with
      | nil => exact ⟨q, below, _, _, rfl, hinput, hdecide⟩
      | cons x rest => exact ⟨q, below, _, _, rfl, hinput, hdecide⟩
    | some action =>
      rw [step?, hq] at hstuck
      simp only [hdecide] at hstuck
      cases action with
      | shift next => cases hstuck
      | reduce rule left symbols =>
        obtain ⟨_, top, more, next, hdrop, hgoto⟩ :=
          h.exists_goto wf hc hsharpens hreads hw hgotos hq hdecide
        rw [hq] at hdrop
        simp only [hdrop, hgoto, Option.map_some] at hstuck
        cases hstuck
      | accept => exact Or.inl (accepts_iff.mpr ⟨q, below, hq, hdecide⟩)
      | lookahead table wildcard =>
        cases h.isPlain wf hc hsharpens hreads hw hq hdecide

theorem Consistent.safe (hrows : tables.action.length = a.size) : Safe tables c where
  below := by
    obtain ⟨f, _, _, hstack, _⟩ := h
    rw [hrows]
    exact hstack.lt_size hc
  bottom := by
    obtain ⟨f, _, _, hstack, _⟩ := h
    obtain ⟨above, hsplit, _⟩ := hstack.exists_above hc wf
    rw [hsplit, List.getLast?_concat]
  reduce _ _ _ _ _ hq hdecide := h.exists_goto wf hc hsharpens hreads hw hgotos hq hdecide
  accept haccepts := h.stack_of_accepts wf hc hsharpens hreads hw haccepts
  stuck hstuck := h.accepts_or_of_stuck wf hc hsharpens hreads hw hgotos hstuck

end Run

end Tables

namespace Grammar

/-- With tables of a grammar the parser is safe in every configuration that it reaches,
whatever symbols it is given. -/
theorem safe_of_reaches {g : Grammar} (built : g.Built) (fits : g.Fits) {method : Method}
    {tables : Tables} (h : g.tables method = .ok tables) :
    tables.action.length = tables.goto.length ∧
      ∀ w : List SymbolId, (∀ x ∈ w, x ∈ g.terminals) → ∀ c : Configuration,
        tables.Reaches (Tables.start (w.map g.nameOf ++ [Symbol.endName])) c →
          tables.Safe c := by
  have wf := built.wellFormed fits.symbols fits.rules
  have hc := wf.canonical fits.states
  obtain ⟨b, _, hsharpens, hreads, htables⟩ := wf.exists_behind fits.states h
  obtain ⟨haction, hgoto⟩ := Automaton.length_of_tables htables
  refine ⟨haction.trans hgoto.symm, fun w hw c hreach => ?_⟩
  rw [← wf.nameOf_endMarker, ← List.map_singleton, ← List.map_append] at hreach
  have hconsistent := Tables.Consistent.of_reaches wf hc hsharpens hreads hw hreach
  exact hconsistent.safe wf hc hsharpens hreads hw
    (fun _ _ _ hedge hx => wf.goto_of_edge fits.states h hedge hx)
    (haction.trans hsharpens.size_eq)

/-- The parser comes to a halt on `if x if x`, and that is because an entry is missing. -/
theorem safe_of_reaches_branching : ∃ (g : Grammar) (tables : Tables) (c : Configuration)
    (q : Nat) (below : List Nat), ofDefinitions branching = .ok g ∧
      g.tables .refined = .ok tables ∧
        tables.Reaches (Tables.start ["if", "x", "if", "x", "$end"]) c ∧
          c.stack = q :: below ∧ q < tables.goto.length ∧ tables.decide? q c.input = none := by
  obtain ⟨g, hg, h⟩ : ∃ g, ofDefinitions branching = .ok g ∧
      decide (g.Fits ∧ (∀ x ∈ broken, x ∈ g.terminals) ∧
        broken.map g.nameOf = ["if", "x", "if", "x"] ∧
          ((g.tables .refined).toOption.any fun tables =>
            (tables.after? 2 (Tables.start ["if", "x", "if", "x", "$end"])).any fun c =>
              (tables.step? c).isNone && !tables.accepts c) = true) = true :=
    exists_ok_of_any (by decide +kernel)
  obtain ⟨fits, hterminals, hnames, htables⟩ := of_decide_eq_true h
  obtain ⟨tables, htables, hrun⟩ := exists_ok_of_any htables
  obtain ⟨c, hafter, hc⟩ := (Option.any_eq_true _ _).mp hrun
  obtain ⟨hstuck, hno⟩ := Bool.and_eq_true_iff.mp hc
  have hreach := Tables.reaches_of_after? hafter
  obtain ⟨hrows, hsafe⟩ := safe_of_reaches (.ofDefinitions hg) fits htables
  have safe := hsafe broken hterminals c (by rw [hnames]; exact hreach)
  rcases safe.stuck (Option.isNone_iff_eq_none.mp hstuck) with haccepts |
    ⟨q, below, x, rest, hq, _, hdecide⟩
  · rw [haccepts] at hno
    cases hno
  · refine ⟨g, tables, c, q, below, hg, htables, hreach, hq, ?_, hdecide⟩
    rw [← hrows]
    exact safe.below q (hq ▸ List.mem_cons_self)

end Grammar
end ShiftReduce
