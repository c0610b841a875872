/-
A generator makes tables unless there is a conflict.

What the tables are made of is there for every transition of the canonical collection and
of its refinement: the item it stems from, the name of its symbol, the names in its
lookahead.  `Grounded` says so of one transition; `Placed` is the part of it that rows of
actions need, and holds for longer lookaheads too.  An automaton of grounded transitions
passes the check or has a conflict that can be reported, and in the first case it has
tables.

A generator looks up more than that on its way to the tables, and each access may be refused: symbols and
rules of the grammar, states and items, transitions at positions that were gathered before others
were removed.  None of them is (`WellFormed.generate_eq`), which leaves no other way for it to fail:
`tables_ok_or_conflict`.
-/
import ShiftReduce.Proofs.Automaton.Questions
import ShiftReduce.Proofs.Checked.Construction
import ShiftReduce.Proofs.Checked.Table
import ShiftReduce.Proofs.Refinement.Report
import ShiftReduce.Proofs.Session.Memory

namespace ShiftReduce

theorem SymbolSet.exists_names {g : Grammar} {s : SymbolSet}
    (h : ∀ x ∈ s, x.index < g.symbols.length) : ∃ names, s.names? g = some names :=
  exists_mapM_some fun x hx => ⟨_, Grammar.name?_eq_some_nameOf (h x hx)⟩

namespace Lookahead

theorem mem_of_mem_throughEmpty {sets : List SymbolSet} {s : SymbolSet}
    (h : s ∈ throughEmpty sets) : s ∈ sets := by
  induction sets with
  | nil => exact h
  | cons first rest ih =>
    rw [throughEmpty] at h
    split at h
    · rw [List.mem_singleton.mp h]
      exact List.mem_cons_self
    · rcases List.mem_cons.mp h with rfl | h
      · exact List.mem_cons_self
      · exact List.mem_cons_of_mem first (ih h)

theorem exists_columns {g : Grammar} {l : Lookahead}
    (h : ∀ s ∈ l.positions, ∀ x ∈ s, x.index < g.symbols.length) :
    ∃ positions, l.columns? g = some positions :=
  exists_mapM_some fun s hs => SymbolSet.exists_names (h s (mem_of_mem_throughEmpty hs))

end Lookahead

/-- The questions about the item at a site are answered: by a survey, which may be refused what it looks
up, and by every session with the automaton, which answers as the survey does unless it remembers
what was never so. -/
structure Survey.Answers (v : Survey) (g : Grammar) (a : Automaton) (site : Site) : Prop where
  firstSet : ∃ set, v.firstSet site = .ok set
  followSet : ∃ set, v.followSet site = .ok set
  asked : ∀ n : Session, n.automaton = a →
    (∃ set, (n.firstSet g site).1 = .ok set) ∧ ∃ set, (n.followSet g site).1 = .ok set
  coherent : ∀ n : Session, n.automaton = a → n.Coherent g →
    (n.firstSet g site).1 = v.firstSet site ∧ (n.followSet g site).1 = v.followSet site

namespace Automaton

variable {g : Grammar} {a b : Automaton}

theorem Askable.answers (h : Askable g a) (wf : g.WellFormed) {site : Site} {item : Item}
    (hitem : a.item site = .ok item) : (Survey.make g a).Answers g a site := by
  have hfirst := Session.firstSet_start wf h.belongsTo site
  have hfollow := Session.followSet_start wf h.belongsTo site
  refine { firstSet := ?_, followSet := ?_, asked := fun n hn => ?_, coherent := fun n hn hcoh => ?_ }
  · rw [← hfirst]
    exact Session.exists_firstSet_ok hitem
  · rw [← hfollow]
    exact Session.exists_followSet_ok h hitem
  · subst hn
    exact ⟨Session.exists_firstSet_ok hitem, Session.exists_followSet_ok h hitem⟩
  · subst hn
    exact ⟨(Session.answered_firstSet hcoh site).answer.trans hfirst,
      (Session.answered_followSet hcoh site).answer.trans hfollow⟩

/-- What a row of actions needs of a transition is there: the item it stems from, its symbol,
and the symbols in its lookahead. -/
structure Placed (g : Grammar) (a : Automaton) (t : Transition) : Prop where
  item : ∃ item, a.item t.origin = .ok item
  symbol : t.symbol.index < g.symbols.length
  lookahead : ∀ s ∈ t.lookahead.positions, ∀ x ∈ s, x.index < g.symbols.length

namespace Placed

variable {t : Transition} (h : Placed g a t)

include h

theorem exists_action : ∃ action, a.action? g t = .ok action := by
  obtain ⟨item, hitem⟩ := h.item
  unfold action?
  split
  · exact ⟨_, rfl⟩
  · exact ⟨_, rfl⟩
  · exact ⟨_, bind_eq_ok.mpr ⟨item, hitem, rfl⟩⟩
  · exact ⟨_, rfl⟩

theorem exists_addAction_ok (row : Row Action) : ∃ row', a.addAction g row t = .ok row' := by
  obtain ⟨found, hfound⟩ := h.exists_action
  obtain ⟨positions, hpositions⟩ := Lookahead.exists_columns h.lookahead
  have hname := Failure.orForeign_eq_ok.mpr (Grammar.name?_eq_some_nameOf h.symbol)
  have hcolumns := Failure.orForeign_eq_ok.mpr hpositions
  refine exists_bind_ok ⟨found, hfound⟩ fun found' _ => ?_
  cases found' with
  | none => exact ⟨row, rfl⟩
  | some action => exact ⟨_, bind_eq_ok.mpr ⟨_, hname, bind_eq_ok.mpr ⟨_, hcolumns, rfl⟩⟩⟩

end Placed

theorem exists_actionTable_ok (h : ∀ s ∈ a.states, ∀ t ∈ s.transitions, Placed g a t) :
    ∃ rows, a.actionTable g = .ok rows := by
  refine exists_mapM_ok fun s hs => ?_
  refine exists_foldlM_ok (fun _ => True) (fun t ht row _ => ?_) trivial
  obtain ⟨row', hrow⟩ := (h s hs t (mem_actionOrder.mp ht).1).exists_addAction_ok row
  exact ⟨row', hrow, trivial⟩

/-- What tables and reports need of a transition is there, and its lookahead is of the kind that
generators make: one position at most, with input symbols in it. -/
structure Grounded (g : Grammar) (a : Automaton) (t : Transition) : Prop where
  item : ∃ item, a.item t.origin = .ok item
  symbol : t.symbol.index < g.symbols.length
  simple : t.lookahead.Simple g

namespace Grounded

variable {t : Transition} (h : Grounded g a t)

include h

theorem placed : Placed g a t :=
  { item := h.item
    symbol := h.symbol
    lookahead := fun s hs x hx => Grammar.lt_of_isTerminal (h.simple.2 s hs x hx) }

theorem exists_addGoto_ok (row : Row Nat) : ∃ row', addGoto g row t = .ok row' := by
  have hname := Failure.orForeign_eq_ok.mpr (Grammar.name?_eq_some_nameOf h.symbol)
  unfold addGoto
  split
  · exact ⟨_, bind_eq_ok.mpr ⟨_, hname, rfl⟩⟩
  · exact ⟨row, rfl⟩
  · exact ⟨row, rfl⟩
  · exact ⟨row, rfl⟩

end Grounded

/-- Every transition of the automaton is grounded. -/
def AllGrounded (g : Grammar) (a : Automaton) : Prop :=
  ∀ s ∈ a.states, ∀ t ∈ s.transitions, Grounded g a t

namespace AllGrounded

variable (h : AllGrounded g a)

include h

theorem check_cases (wf : g.WellFormed) (ha : a.BelongsTo g) :
    a.check g = .ok () ∨ ∃ report, a.check g = .error (.conflict report) :=
  Automaton.check_cases wf ha fun s hs t ht =>
    Transition.exists_render wf ha (h s hs t ht).symbol (h s hs t ht).simple

theorem exists_tables_ok : ∃ tables, a.tables g = .ok tables := by
  have hactions : ∃ rows, a.actionTable g = .ok rows :=
    exists_actionTable_ok fun s hs t ht => (h s hs t ht).placed
  have hgotos : ∃ rows, a.gotoTable g = .ok rows := by
    refine exists_mapM_ok fun s hs => ?_
    refine exists_foldlM_ok (fun _ => True) (fun t ht row _ => ?_) trivial
    obtain ⟨row', hrow⟩ := (h s hs t ht).exists_addGoto_ok row
    exact ⟨row', hrow, trivial⟩
  have hrules : ∃ rules, a.reducedRules = .ok rules := by
    refine exists_bind_ok (exists_mapM_ok fun t ht => ?_) fun items _ => ⟨_, rfl⟩
    obtain ⟨s, hs, ht⟩ := List.mem_flatMap.mp ht
    exact (h s hs t (List.mem_filter.mp ht).1).item
  exact exists_bind_ok hactions fun _ _ => exists_bind_ok hgotos fun _ _ =>
    exists_bind_ok (exists_bind_ok hrules fun _ _ => ⟨_, rfl⟩) fun _ _ => ⟨_, rfl⟩

/-- The last two steps of a generator. -/
theorem check_tables_cases (wf : g.WellFormed) (ha : a.BelongsTo g) :
    (∃ tables, (a.check g >>= fun _ => a.tables g) = .ok tables) ∨
      ∃ report, (a.check g >>= fun _ => a.tables g) = .error (.conflict report) := by
  rcases h.check_cases wf ha with hcheck | ⟨report, hcheck⟩
  · obtain ⟨tables, htables⟩ := h.exists_tables_ok
    exact Or.inl ⟨tables, bind_eq_ok.mpr ⟨(), hcheck, htables⟩⟩
  · refine Or.inr ⟨report, ?_⟩
    rw [hcheck]
    rfl

end AllGrounded

namespace Sharpens

variable {a b : Automaton} (h : Sharpens b a)

include h

theorem exists_state_before {n : Nat} {s' : State} (hs' : b.states[n]? = some s') :
    ∃ s, a.states[n]? = some s ∧ s'.id = s.id ∧ s'.itemSet = s.itemSet := by
  have hsize : b.states.length = a.states.length := h.size_eq
  have hn := (List.getElem?_eq_some_iff.mp hs').1
  have hs : a.states[n]? = some _ := List.getElem?_eq_getElem (hsize ▸ hn)
  obtain ⟨hid, hset, _⟩ := h.at hs hs'
  exact ⟨_, hs, hid, hset⟩

theorem mem_items {g : Grammar} {item : Item} (hitem : item ∈ a.items g) : item ∈ b.items g := by
  obtain ⟨hmem, hany⟩ := List.mem_filter.mp hitem
  obtain ⟨s, hs, hcontains⟩ := List.any_eq_true.mp hany
  obtain ⟨n, hn⟩ := List.mem_iff_getElem?.mp hs
  obtain ⟨s', hs'⟩ := h.exists_state hn
  obtain ⟨_, hset, _⟩ := h.at hn hs'
  refine List.mem_filter.mpr ⟨hmem, List.any_eq_true.mpr ⟨s', List.mem_of_getElem? hs', ?_⟩⟩
  rw [hset]
  exact hcontains

/-- Questions about items do not look at transitions. -/
theorem askable {g : Grammar} (ha : Askable g a) : Askable g b where
  index_id := fun n s' hs' => by
    obtain ⟨s, hs, hid, _⟩ := h.exists_state_before hs'
    rw [hid]
    exact ha.index_id n s hs
  belongsTo := Reworked.belongsTo h ha.belongsTo
  introduced := fun s' hs' => by
    obtain ⟨n, hn⟩ := List.mem_iff_getElem?.mp hs'
    obtain ⟨s, hs, _, hset⟩ := h.exists_state_before hn
    rw [hset]
    exact ha.introduced s (List.mem_of_getElem? hs)
  moved := fun s' hs' item hitem next hnext => by
    obtain ⟨n, hn⟩ := List.mem_iff_getElem?.mp hs'
    obtain ⟨s, hs, _, hset⟩ := h.exists_state_before hn
    rw [hset] at hitem
    exact h.mem_items (ha.moved s (List.mem_of_getElem? hs) item hitem next hnext)

end Sharpens

namespace Canonical

variable (hc : Canonical g a) (wf : g.WellFormed)

include hc wf

theorem allGrounded : AllGrounded g a := by
  intro s hs t ht
  obtain ⟨n, hn⟩ := List.mem_iff_getElem?.mp hs
  obtain ⟨target, item, _, hitem, _, hprescribes⟩ := hc.prescribes_of_mem hn ht
  exact
    { item := ⟨item, hitem⟩
      symbol := hprescribes.symbol_lt wf
      simple := hc.any_lookahead hs ht ▸ Lookahead.simple_any g }

/-- Refining keeps items and symbols, and makes lookaheads of input symbols only. -/
theorem allGrounded_refine {events : List Event} (h : a.refine g = .ok (b, events)) :
    AllGrounded g b := by
  intro s' hs' t' ht'
  have hsharpens := hc.sharpens_refine h
  obtain ⟨n, hn⟩ := List.mem_iff_getElem?.mp hs'
  obtain ⟨s, hs, _, _⟩ := hsharpens.exists_state_before hn
  obtain ⟨_, _, pruned, ahead, kept, pairs, verdicts, hpruned, hahead, hkept, e⟩ :=
    (refined_of_refine wf h).at hs hn
  have ready := hc.ready wf hs hpruned hahead
  obtain ⟨_, _, _, hsimple⟩ := Refinement.exists_stem_of_settled wf ready hkept (e ▸ ht')
  obtain ⟨t, ht, hedge⟩ := hsharpens.exists_stem hs hn ht'
  obtain ⟨⟨item, hitem⟩, hsymbol, _⟩ := hc.allGrounded wf s (List.mem_of_getElem? hs) t ht
  refine { item := ⟨item, ?_⟩, symbol := ?_, simple := hsimple }
  · rw [Transition.origin_of_edge hedge]
    exact hsharpens.item_eq hitem
  · rw [Transition.symbol_of_edge hedge]
    exact hsymbol

end Canonical

end Automaton

namespace Grammar

/-- Tables made with priorities are those of what the five passes make of the automaton. -/
theorem WellFormed.exists_passes {g : Grammar} (wf : g.WellFormed)
    (hsize : (Automaton.build g).size < handleSpan) {tables : Tables}
    (h : g.tables .refined = .ok tables) :
    ∃ (pruned ahead settled : Automaton) (looks verdicts events : List Event),
      (Automaton.build g).prune (.make g (.build g)) = .ok pruned ∧
        pruned.lookAhead (.make g (.build g)) = .ok (ahead, looks) ∧
        ahead.settle (.make g (.build g)) = .ok (settled, verdicts) ∧
        (Automaton.build g).refine g = .ok (settled.cleaned, events) ∧
          settled.cleaned.check g = .ok () ∧ settled.cleaned.tables g = .ok tables := by
  obtain ⟨pruned, ahead, settled, looks, verdicts, events, hpruned, hahead, hsettled, hrefine⟩ :=
    (wf.canonical hsize).exists_refine_ok wf
  obtain ⟨⟨b, _⟩, hb, h⟩ := bind_eq_ok.mp h
  obtain ⟨_, hcheck, htables⟩ := bind_eq_ok.mp h
  rw [hrefine] at hb
  cases hb
  exact ⟨pruned, ahead, settled, looks, verdicts, events, hpruned, hahead, hsettled, hrefine,
    hcheck, htables⟩

/-- A generator looks nothing up in vain, so it makes the tables there are. -/
theorem WellFormed.generate_eq {g : Grammar} (wf : g.WellFormed)
    (hsize : (Automaton.build g).size < handleSpan) (method : Method) :
    g.generate method = g.tables method := by
  have hc := wf.canonical hsize
  have hbuild := Checked.build_eq_ok wf (Nat.le_of_lt hsize)
  cases method with
  | plain =>
    have hautomaton : g.automaton .plain = .ok (.build g) := bind_eq_ok.mpr ⟨_, hbuild, rfl⟩
    rw [generate, hautomaton, tables, plainTables]
    show ((Automaton.build g).check g >>= fun _ => Checked.tables g (.build g)) = _
    rw [Checked.tables_eq wf (hc.belongsTo_grammar wf)]
  | refined =>
    obtain ⟨_, _, settled, _, _, events, _, _, _, hrefine⟩ := hc.exists_refine_ok wf
    have hautomaton : g.automaton .refined = .ok settled.cleaned :=
      bind_eq_ok.mpr ⟨_, hbuild, bind_eq_ok.mpr ⟨_, hrefine, rfl⟩⟩
    rw [generate, hautomaton, tables, refinedTables, hrefine]
    show (settled.cleaned.check g >>= fun _ => Checked.tables g settled.cleaned) = _
    rw [Checked.tables_eq wf
      (Automaton.Reworked.belongsTo (hc.sharpens_refine hrefine) (hc.belongsTo_grammar wf))]
    rfl

/-- A generator makes tables or reports a conflict, and fails in no other way: no position, handle or
item that it looks up is missing, wherever it gathers them and whatever it removes in between, and
what it logs can be written down.  Questions about the first and follow sets of items are answered
for every item there is, both before the automaton is refined and after it. -/
theorem tables_ok_or_conflict {g : Grammar} (built : g.Built) (fits : g.Fits) :
    (∀ method, ((∃ tables, g.generate method = .ok tables) ∨
        ∃ report, g.generate method = .error (.conflict report)) ∧
      g.generate method = g.tables method ∧ ∃ lines, g.log method = .ok lines) ∧
    Checked.build g = .ok (.build g) ∧
    ∃ (b : Automaton) (events : List Event), (Automaton.build g).refine g = .ok (b, events) ∧
      ∀ a : Automaton, a = .build g ∨ a = b → ∃ v, Checked.survey g a = .ok v ∧
        ∀ (site : Site) (item : Item), a.item site = .ok item → v.Answers g a site := by
  have wf := built.wellFormed fits.symbols fits.rules
  have hc := wf.canonical fits.states
  have ha := hc.belongsTo_grammar wf
  have haskable := hc.askable wf (Automaton.introduced_build wf)
  obtain ⟨_, _, _, _, _, events, _, _, _, hrefine⟩ := hc.exists_refine_ok wf
  have hsharpens := hc.sharpens_refine hrefine
  refine ⟨fun method => ⟨?_, wf.generate_eq fits.states method, wf.exists_log fits.states method⟩,
    Checked.build_eq_ok wf (Nat.le_of_lt fits.states), _, events, hrefine, fun a hchoice => ?_⟩
  · rw [wf.generate_eq fits.states]
    cases method with
    | plain => exact (hc.allGrounded wf).check_tables_cases wf ha
    | refined =>
      have hcases := (hc.allGrounded_refine wf hrefine).check_tables_cases wf
        (Automaton.Reworked.belongsTo hsharpens ha)
      rw [tables, refinedTables, hrefine]
      exact hcases
  · refine ⟨_, Checked.survey_eq_ok wf a, fun site item hitem => ?_⟩
    rcases hchoice with rfl | rfl
    · exact haskable.answers wf hitem
    · exact (hsharpens.askable haskable).answers wf hitem

/-- Without priorities the branches of `branching` are in conflict.  The second item of the
first state was added by the closure, and its follow set is that of the first. -/
theorem tables_ok_or_conflict_branching : ∃ (g : Grammar) (report : ConflictReport) (v : Survey),
    ofDefinitions branching = .ok g ∧ g.generate .plain = .error (.conflict report) ∧
      Checked.survey g (.build g) = .ok v ∧ ∃ set, v.followSet ⟨Handle.ofNat 0, 1⟩ = .ok set := by
  obtain ⟨g, hg, h⟩ : ∃ g, ofDefinitions branching = .ok g ∧
      decide (g.Fits ∧ (g.generate .plain).toOption.isNone = true ∧
        (((Automaton.build g).item ⟨Handle.ofNat 0, 1⟩).toOption.any fun item =>
          item == ⟨Handle.ofNat 1, 0⟩) = true) = true := exists_ok_of_any (by decide +kernel)
  obtain ⟨fits, hnone, hitem⟩ := of_decide_eq_true h
  obtain ⟨hcases, _, b, events, _, hquestions⟩ := tables_ok_or_conflict (.ofDefinitions hg) fits
  obtain ⟨item, hitem, _⟩ := exists_ok_of_any hitem
  obtain ⟨v, hv, hanswers⟩ := hquestions (.build g) (Or.inl rfl)
  have hset := (hanswers _ item hitem).followSet
  rcases (hcases .plain).1 with ⟨tables, htables⟩ | ⟨report, hreport⟩
  · rw [htables] at hnone
    cases hnone
  · exact ⟨g, report, v, hg, hreport, hv, hset⟩

end Grammar
end ShiftReduce
