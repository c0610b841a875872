/-
Priorities where there is nothing to settle.

Pruning and looking ahead ask nothing about priorities, so up to settling two grammars that
differ in them are refined alike.  If no two transitions are in conflict by then, settling,
burying and cleaning up have nothing to do either: the order of priorities is never looked
at.  Tables made with one priority for all rules show that no two transitions are in
conflict by then, since settling did nothing and nothing was dead: `refinedTables_inert`.
-/
import ShiftReduce.Proofs.Automaton.Unranked
import ShiftReduce.Proofs.Table.Answers

namespace ShiftReduce

theorem foldlM_eq_ok_congr {α β ε : Type} {f f' : β → α → Except ε β} {xs : List α}
    (h : ∀ b, ∀ x ∈ xs, ∀ c, f b x = .ok c ↔ f' b x = .ok c) {b c : β} :
    xs.foldlM f b = .ok c ↔ xs.foldlM f' b = .ok c := by
  induction xs generalizing b with
  | nil => rw [List.foldlM_nil, List.foldlM_nil]
  | cons x rest ih =>
    rw [List.foldlM_cons, List.foldlM_cons, bind_eq_ok, bind_eq_ok]
    refine exists_congr fun d => and_congr (h b x List.mem_cons_self d) ?_
    exact ih fun b y hy => h b y (List.mem_cons_of_mem x hy)

namespace Automaton

variable {g : Grammar} {a b : Automaton}

/-- Where an item is found has nothing to do with the grammar.  Only if it is not found is
it written down. -/
theorem locate_unranked_eq_ok {item : Item} {site : Site} :
    a.locate g.unranked item = .ok site ↔ a.locate g item = .ok site := by
  have refused : ∀ h : Grammar, ¬ (Checked.render h item >>= fun text =>
      .error (.itemNotFound text)) = Except.ok site := by
    intro h hok
    obtain ⟨text, _, hok⟩ := bind_eq_ok.mp hok
    cases hok
  simp only [locate]
  split
  · rfl
  · exact iff_of_false (refused _) (refused _)

theorem advancedSite_unranked_eq_ok {origin site : Site} :
    a.advancedSite g.unranked origin = .ok site ↔ a.advancedSite g origin = .ok site := by
  have refused : ∀ (h : Grammar) (item : Item), ¬ (Checked.rule h item.rule >>= fun r =>
      .error (.invalidItem item.rule.index (item.dot + 1) r.right.length)) = Except.ok site := by
    intro h item hok
    obtain ⟨r, _, hok⟩ := bind_eq_ok.mp hok
    cases hok
  simp only [advancedSite, bind_eq_ok, Checked.advance_unranked]
  refine exists_congr fun item => and_congr_right fun _ => exists_congr fun next =>
    and_congr_right fun _ => ?_
  cases next with
  | none => exact iff_of_false (refused _ _) (refused _ _)
  | some next => exact locate_unranked_eq_ok

end Automaton

namespace Survey

variable {g : Grammar} {a : Automaton}

theorem shiftLookahead_unranked_eq_ok {origin : Site} {l : Lookahead} :
    (make g.unranked a).shiftLookahead origin = .ok l ↔
      (make g a).shiftLookahead origin = .ok l := by
  rw [shiftLookahead, shiftLookahead, bind_eq_ok, bind_eq_ok, firstSet_unranked]
  exact exists_congr fun site => and_congr_left fun _ => Automaton.advancedSite_unranked_eq_ok

theorem lookaheadOf_unranked_eq_ok {t : Transition} {found : Option Lookahead} :
    (make g.unranked a).lookaheadOf t = .ok found ↔ (make g a).lookaheadOf t = .ok found := by
  unfold lookaheadOf
  cases t.move with
  | shift target l =>
    simp only [bind_eq_ok]
    exact exists_congr fun l => and_congr_left fun _ => shiftLookahead_unranked_eq_ok
  | goto target => rfl
  | reduce l =>
    have hreduce : Checked.reduceLookahead (make g.unranked a) =
        Checked.reduceLookahead (make g a) := by
      rw [make_unranked]
      exact Checked.reduceLookahead_unranked (make g a)
    show (a.item t.origin >>= fun item => Checked.left g.unranked item >>= _) = _ ↔ _
    rw [hreduce, Checked.left_unranked]
    rfl
  | accept => rfl

theorem lookInto_unranked_eq_ok {t t' : Transition} :
    (make g.unranked a).lookInto t = .ok t' ↔ (make g a).lookInto t = .ok t' := by
  rw [lookInto, lookInto, bind_eq_ok, bind_eq_ok]
  exact exists_congr fun found => and_congr_left fun _ => lookaheadOf_unranked_eq_ok

end Survey

namespace Refinement

variable {g : Grammar} {a : Automaton}

theorem isLive_unranked (t : Transition) :
    isLive (.make g.unranked a) t = isLive (.make g a) t := by
  rw [isLive, isLive, Survey.firstSet_unranked]

theorem pruneTransitions_unranked :
    pruneTransitions (.make g.unranked a) = pruneTransitions (.make g a) := by
  funext ts
  rw [pruneTransitions, pruneTransitions, funext isLive_unranked]

theorem lookAheadBoth_unranked_eq_ok {ts : List Transition} {r s : Nat}
    {result : List Transition × Bool} :
    lookAheadBoth (.make g.unranked a) ts r s = .ok result ↔
      lookAheadBoth (.make g a) ts r s = .ok result := by
  unfold lookAheadBoth
  split
  · split
    · simp only [bind_eq_ok, Survey.lookInto_unranked_eq_ok]
    · rfl
  · rfl

theorem lookAheadTransitions_unranked_eq_ok {ts : List Transition}
    {result : List Transition × List (Nat × Nat)} :
    lookAheadTransitions (.make g.unranked a) ts = .ok result ↔
      lookAheadTransitions (.make g a) ts = .ok result := by
  refine foldlM_eq_ok_congr fun m pair _ m' => ?_
  rw [bind_eq_ok, bind_eq_ok]
  exact exists_congr fun _ => and_congr_left fun _ => lookAheadBoth_unranked_eq_ok

/-! ## Where nothing is in conflict -/

theorem not_conflictsWith_at {ts : List Transition} (h : ¬ State.Conflicting ts) {i j : Nat}
    {t u : Transition} (ht : ts[i]? = some t) (hu : ts[j]? = some u) :
    ¬ t.conflictsWith u = true := fun hconflict =>
  h ⟨t, List.mem_of_getElem? ht, u, List.mem_of_getElem? hu, hconflict⟩

/-- Priorities are not even looked at. -/
theorem settle_of_not_conflicting {v : Survey} {ts : List Transition}
    (h : ¬ State.Conflicting ts) : settleTransitions v ts = .ok (ts, []) := by
  have step : ∀ pair : Nat × Nat,
      Ledger.settle v ⟨ts, [], []⟩ pair.1 pair.2 = .ok ⟨ts, [], []⟩ := by
    intro pair
    unfold Ledger.settle
    split
    · rename_i t u ht hu
      rw [if_neg (not_conflictsWith_at h ht hu)]
    · rfl
  refine bind_eq_ok.mpr ⟨_, foldlM_of_fixed fun pair _ => step pair, ?_⟩
  have hkept : (ts.zipIdx.filter fun entry => !([] : List Nat).contains entry.2) = ts.zipIdx :=
    List.filter_eq_self.mpr fun _ _ => rfl
  show Except.ok (((ts.zipIdx.filter fun entry => !([] : List Nat).contains entry.2).map
    Prod.fst), []) = _
  rw [hkept, List.zipIdx_map_fst]

theorem lookAhead_of_not_conflicting {v : Survey} {ts : List Transition}
    (h : ¬ State.Conflicting ts) : lookAheadTransitions v ts = .ok (ts, []) := by
  have step : ∀ pair : Nat × Nat, lookAheadBoth v ts pair.1 pair.2 = .ok (ts, false) := by
    intro pair
    unfold lookAheadBoth
    split
    · rename_i t u ht hu
      rw [if_neg (not_conflictsWith_at h ht hu)]
    · rfl
  exact foldlM_of_fixed fun pair _ => bind_eq_ok.mpr ⟨_, step pair, rfl⟩

/-- Burying takes nothing away where everything lets something through. -/
theorem bury_of_alive {ts : List Transition} (h : ∀ t ∈ ts, t.lookahead.isDead = false) :
    buryTransitions ts = ts :=
  List.filter_eq_self.mpr fun t ht => by rw [h t ht]; rfl

/-- There is no lookahead to take away where none is left that decides nothing. -/
theorem compact_of_settled {ts : List Transition}
    (h : ∀ t ∈ ts, isSettled ts t = true → t.lookahead = .any) : compactTransitions ts = ts := by
  refine (List.map_congr_left fun t ht => ?_).trans (List.map_id ts)
  show (if isSettled ts t then t.withLookahead .any else t) = t
  split
  · rename_i hsettled
    exact h t ht hsettled ▸ t.withLookahead_lookahead
  · rfl

theorem compact_of_any {ts : List Transition} (h : ∀ t ∈ ts, t.lookahead = .any) :
    compactTransitions ts = ts :=
  compact_of_settled fun t ht _ => h t ht

end Refinement

namespace Automaton

variable {g h : Grammar} {a b : Automaton}

theorem traverse_eq_ok_congr {β : Type}
    {f f' : List Transition → Except Failure (List Transition × β)}
    (hf : ∀ ts result, f ts = .ok result ↔ f' ts = .ok result)
    {result : Automaton × List (State × β)} :
    a.traverseTransitions f = .ok result ↔ a.traverseTransitions f' = .ok result := by
  rw [traverseTransitions, traverseTransitions, bind_eq_ok, bind_eq_ok]
  refine exists_congr fun results => and_congr_left fun _ => ?_
  rw [mapM_eq_ok, mapM_eq_ok]
  constructor
  · intro hall
    refine hall.imp fun s r h => ?_
    rw [bind_eq_ok] at h ⊢
    exact h.imp fun result hresult => ⟨(hf _ result).mp hresult.1, hresult.2⟩
  · intro hall
    refine hall.imp fun s r h => ?_
    rw [bind_eq_ok] at h ⊢
    exact h.imp fun result hresult => ⟨(hf _ result).mpr hresult.1, hresult.2⟩

theorem prune_unranked : b.prune (.make g.unranked a) = b.prune (.make g a) := by
  rw [prune, prune, rework_holding (Refinement.prune_eq _), rework_holding (Refinement.prune_eq _),
    Refinement.pruneTransitions_unranked]

theorem lookAhead_unranked_eq_ok {result : Automaton × List Event} :
    b.lookAhead (.make g.unranked a) = .ok result ↔ b.lookAhead (.make g a) = .ok result := by
  rw [lookAhead, lookAhead, bind_eq_ok, bind_eq_ok, reworkStates_holding (Refinement.lookAhead_eq _),
    reworkStates_holding (Refinement.lookAhead_eq _)]
  refine exists_congr fun _ => and_congr_left fun _ => ?_
  exact traverse_eq_ok_congr fun _ _ => Refinement.lookAheadTransitions_unranked_eq_ok

/-! ## Passes with nothing to do -/

theorem mapTransitions_of_fixed {f : List Transition → List Transition}
    (hf : ∀ s ∈ a.states, f s.transitions = s.transitions) : a.mapTransitions f = a := by
  obtain ⟨states⟩ := a
  show (⟨states.map fun s => { s with transitions := f s.transitions }⟩ : Automaton) = ⟨states⟩
  refine congrArg Automaton.mk ((List.map_congr_left fun s hs => ?_).trans (List.map_id states))
  rw [hf s hs]
  rfl

/-- A step that changes no transitions of any state, and notes the same of each. -/
theorem traverse_of_fixed {β : Type} {f : List Transition → Except Failure (List Transition × β)}
    {note : β} (hf : ∀ s ∈ a.states, f s.transitions = .ok (s.transitions, note)) :
    a.traverseTransitions f = .ok (a, a.states.map fun s => (s, note)) := by
  rw [traverseTransitions, bind_eq_ok]
  refine ⟨a.states.map fun s => (s, note), ?_, ?_⟩
  · rw [mapM_eq_ok, List.forall₂_map_right_iff]
    refine List.forall₂_same.mpr fun s hs => ?_
    rw [hf s hs]
    rfl
  · rw [List.map_map]
    show Except.ok ((⟨a.states.map id⟩ : Automaton), _) = _
    rw [List.map_id]

theorem lookAhead_of_not_conflicting {v : Survey}
    (hno : ∀ s ∈ a.states, ¬ State.Conflicting s.transitions) :
    ∃ events, a.lookAhead v = .ok (a, events) := by
  rw [lookAhead, reworkStates_holding (Refinement.lookAhead_eq v)]
  exact ⟨_, bind_eq_ok.mpr ⟨_, traverse_of_fixed fun s hs =>
    Refinement.lookAhead_of_not_conflicting (hno s hs), rfl⟩⟩

theorem settle_of_not_conflicting {v : Survey}
    (hno : ∀ s ∈ a.states, ¬ State.Conflicting s.transitions) :
    ∃ events, a.settle v = .ok (a, events) := by
  rw [settle, reworkStates_holding (Refinement.settle_eq v)]
  exact ⟨_, bind_eq_ok.mpr ⟨_, traverse_of_fixed fun s hs =>
    Refinement.settle_of_not_conflicting (hno s hs), rfl⟩⟩

/-- If no two transitions are in conflict when all is looked ahead, all that is left to do
is to take lookaheads away. -/
theorem refine_of_not_conflicting {v : Survey} {pruned ahead : Automaton} {looks : List Event}
    (hv : Checked.survey g a = .ok v) (hpruned : a.prune v = .ok pruned)
    (hahead : pruned.lookAhead v = .ok (ahead, looks))
    (hno : ∀ s ∈ ahead.states, ¬ State.Conflicting s.transitions)
    (halive : ∀ s ∈ ahead.states, ∀ t ∈ s.transitions, t.lookahead.isDead = false) :
    ∃ events, a.refine g = .ok (ahead.mapTransitions Refinement.compactTransitions, events) := by
  obtain ⟨verdicts, hsettled⟩ := settle_of_not_conflicting (v := v) hno
  have hbury : ahead.mapTransitions Refinement.buryTransitions = ahead :=
    mapTransitions_of_fixed fun s hs => Refinement.bury_of_alive (halive s hs)
  have hrefine := refine_of_passes hv hpruned hahead hsettled
  rw [cleaned, hbury] at hrefine
  exact hrefine

/-- With one priority nothing is in conflict before settling, if nothing is in the end. -/
theorem Canonical.not_conflicting_of_equal (hc : Canonical g a) (wf : g.WellFormed)
    (hequal : g.EqualPriorities) {pruned ahead settled : Automaton}
    {looks verdicts : List Event} (hpruned : a.prune (.make g a) = .ok pruned)
    (hahead : pruned.lookAhead (.make g a) = .ok (ahead, looks))
    (hsettled : ahead.settle (.make g a) = .ok (settled, verdicts))
    (hcheck : settled.cleaned.check g = .ok ()) :
    ∀ s ∈ ahead.states, ¬ State.Conflicting s.transitions := by
  obtain ⟨p, hp⟩ := hequal
  intro s hs
  obtain ⟨n, s₀, hs₀, _, pruned, pairs, hprune, hlook⟩ :=
    (reworked_ahead hpruned hahead).exists_before hs
  obtain ⟨s', hs', kept, verdicts, hsettle, e⟩ := (reworked_behind hsettled).exists_after hs
  have ready := hc.ready wf hs₀ hprune hlook
  have hsame : kept = s.transitions := by
    refine Refinement.settle_eq_of_equal (p := p) (fun t ht hkind => ?_) hsettle
    obtain ⟨t₀, ht₀, htouched⟩ := (Refinement.touchedAll_lookAhead hlook).exists_of_mem ht
    rw [Transition.kind_of_edge htouched.edge_eq] at hkind
    rw [Refinement.priority_of_edge htouched.edge_eq]
    exact priority_eq wf hc hp hs₀ ((mem_of_retain hprune).mp ht₀).1 hkind
  have hno := check_eq_ok_iff.mp hcheck s' hs'
  rw [e, hsame, Refinement.bury_of_alive ready.alive, Refinement.conflicting_compact_iff] at hno
  exact hno

/-! ## Tables -/

theorem actionTable_unranked : a.actionTable g.unranked = a.actionTable g := by
  have haction : a.action? g.unranked = a.action? g := by
    funext t
    simp only [action?, Item.left_unranked, Grammar.nameOf_unranked, Grammar.bindingsOf_unranked]
  have hadd : a.addAction g.unranked = a.addAction g := by
    funext row t
    simp only [addAction, haction, Grammar.name?_unranked]
    rfl
  have hrow : a.actionRow g.unranked = a.actionRow g := by
    funext s
    rw [actionRow, actionRow, hadd]
  rw [actionTable, actionTable, hrow]

theorem gotoTable_unranked : a.gotoTable g.unranked = a.gotoTable g := rfl

end Automaton

/-- The description of a reduction without the text of its rule. -/
def Reduction.untold (r : Reduction) : Reduction := { r with text := "" }

theorem Grammar.untold_reduction_unranked (g : Grammar) (r : RuleId) :
    (g.unranked.reduction r).untold = (g.reduction r).untold := by
  have haction : (g.unranked.rule? r).bind Rule.action = (g.rule? r).bind Rule.action := by
    rw [rule?_unranked]
    cases g.rule? r <;> rfl
  simp only [reduction, Reduction.untold, leftOf_unranked, rightOf_unranked, nameOf_unranked,
    bindingsOf_unranked, haction]

/-- Of tables only the texts of the rules tell the priorities. -/
theorem Automaton.exists_tables_of_unranked {g h : Grammar} {a : Automaton}
    (hunranked : h.unranked = g.unranked) {tables : Tables} (htables : a.tables g = .ok tables) :
    ∃ tables' : Tables, a.tables h = .ok tables' ∧ tables'.action = tables.action ∧
      tables'.goto = tables.goto ∧
        tables'.reductions.map Reduction.untold = tables.reductions.map Reduction.untold := by
  obtain ⟨actions, hactions, htables⟩ := bind_eq_ok.mp htables
  obtain ⟨gotos, hgotos, htables⟩ := bind_eq_ok.mp htables
  obtain ⟨reductions, hreductions, htables⟩ := bind_eq_ok.mp htables
  cases htables
  obtain ⟨rules, hrules, hreductions⟩ := bind_eq_ok.mp hreductions
  cases hreductions
  rw [← actionTable_unranked, ← hunranked, actionTable_unranked] at hactions
  rw [← gotoTable_unranked, ← hunranked, gotoTable_unranked] at hgotos
  refine ⟨⟨actions, gotos, rules.map h.reduction⟩, bind_eq_ok.mpr ⟨actions, hactions,
    bind_eq_ok.mpr ⟨gotos, hgotos, bind_eq_ok.mpr ⟨_, bind_eq_ok.mpr ⟨rules, hrules, rfl⟩, rfl⟩⟩⟩,
    rfl, rfl, ?_⟩
  rw [List.map_map, List.map_map]
  refine List.map_congr_left fun r _ => ?_
  show (h.reduction r).untold = (g.reduction r).untold
  rw [← h.untold_reduction_unranked, hunranked, g.untold_reduction_unranked]

namespace Grammar

/-- Where tables are made with one priority for all rules, they are made with any priorities,
and are the same but for the texts of the rules. -/
theorem refinedTables_inert {g h : Grammar} (built : g.Built) (built' : h.Built) (fits : g.Fits)
    (same : SameButPriorities g h) (hequal : g.EqualPriorities) {tables : Tables}
    (htables : g.tables .refined = .ok tables) :
    ∃ tables' : Tables, h.tables .refined = .ok tables' ∧ tables'.action = tables.action ∧
      tables'.goto = tables.goto ∧
        tables'.reductions.map Reduction.untold = tables.reductions.map Reduction.untold := by
  have wf := built.wellFormed fits.symbols fits.rules
  have hc := wf.canonical fits.states
  have wf' : h.WellFormed := by
    refine built'.wellFormed (same.symbols ▸ fits.symbols) ?_
    have hlength := congrArg List.length same.rules
    rw [List.length_map, List.length_map] at hlength
    exact hlength ▸ fits.rules
  have hunranked : h.unranked = g.unranked := same.unranked_eq wf wf'
  obtain ⟨pruned, ahead, settled, looks, verdicts, events, hpruned, hahead, hsettled, hrefine,
    hcheck, htables⟩ := wf.exists_passes fits.states htables
  have hno := hc.not_conflicting_of_equal wf hequal hpruned hahead hsettled hcheck
  have halive : ∀ s ∈ ahead.states, ∀ t ∈ s.transitions, t.lookahead.isDead = false := by
    intro s hs
    obtain ⟨n, s₀, hs₀, _, pruned, pairs, hprune, hlook⟩ :=
      (Automaton.reworked_ahead hpruned hahead).exists_before hs
    exact (hc.ready wf hs₀ hprune hlook).alive
  -- the same passes on the same automaton, whichever the priorities
  have hbuild : Automaton.build h = .build g := by
    rw [← Automaton.build_unranked h, hunranked, Automaton.build_unranked]
  have hpruned' : (Automaton.build g).prune (.make h (.build g)) = .ok pruned := by
    rw [← Automaton.prune_unranked, hunranked, Automaton.prune_unranked]
    exact hpruned
  have hahead' : pruned.lookAhead (.make h (.build g)) = .ok (ahead, looks) := by
    rw [← Automaton.lookAhead_unranked_eq_ok, hunranked, Automaton.lookAhead_unranked_eq_ok]
    exact hahead
  obtain ⟨_, hcompact⟩ := Automaton.refine_of_not_conflicting (Checked.survey_eq_ok wf _) hpruned
    hahead hno halive
  obtain ⟨_, hrefine'⟩ := Automaton.refine_of_not_conflicting (Checked.survey_eq_ok wf' _) hpruned'
    hahead' hno halive
  have hsame : settled.cleaned = ahead.mapTransitions Refinement.compactTransitions :=
    congrArg Prod.fst (Except.ok.inj (hrefine.symm.trans hcompact))
  rw [hsame] at hcheck htables
  have hcheck' : (ahead.mapTransitions Refinement.compactTransitions).check h = .ok () :=
    Automaton.check_eq_ok_iff.mpr (Automaton.check_eq_ok_iff.mp hcheck)
  obtain ⟨tables', htables', hrest⟩ := Automaton.exists_tables_of_unranked hunranked htables
  refine ⟨tables', ?_, hrest⟩
  rw [← hbuild] at hrefine'
  exact bind_eq_ok.mpr ⟨_, hrefine', bind_eq_ok.mpr ⟨(), hcheck', htables'⟩⟩

/-- The grammar of `itemList` with a priority of its own for each rule. -/
def rankedItemList : List Bnf.Definition :=
  [⟨"list", [⟨[⟨"list", none⟩, ⟨"item", none⟩], 3⟩, ⟨[], 1⟩]⟩, ⟨"item", [⟨[⟨"x", none⟩], 2⟩]⟩]

theorem refinedTables_inert_itemList : ∃ (g h : Grammar) (tables tables' : Tables),
    ofDefinitions itemList = .ok g ∧ ofDefinitions rankedItemList = .ok h ∧
      g.tables .refined = .ok tables ∧ h.tables .refined = .ok tables' ∧
        tables'.action = tables.action ∧ tables'.goto = tables.goto ∧
          tables'.reductions.map Reduction.untold = tables.reductions.map Reduction.untold := by
  obtain ⟨g, hg, hall⟩ : ∃ g, ofDefinitions itemList = .ok g ∧
      decide (g.Fits ∧ (∀ rule ∈ g.rules.tail, rule.priority = 0) ∧
        ((g.tables .refined).toOption.any fun _ => true) = true ∧
        ((ofDefinitions rankedItemList).toOption.any fun h => decide (h.symbols = g.symbols ∧
          h.rules.map Rule.unranked = g.rules.map Rule.unranked)) = true) = true :=
    exists_ok_of_any (by decide +kernel)
  obtain ⟨fits, hequal, htables, hother⟩ := of_decide_eq_true hall
  obtain ⟨tables, htables, _⟩ := exists_ok_of_any htables
  obtain ⟨h, hh, hsame⟩ := exists_ok_of_any hother
  obtain ⟨hsymbols, hrules⟩ := of_decide_eq_true hsame
  obtain ⟨tables', htables', hrest⟩ := refinedTables_inert (.ofDefinitions hg)
    (.ofDefinitions hh) fits ⟨hsymbols, hrules⟩ ⟨0, hequal⟩ htables
  exact ⟨g, h, tables, tables', hg, hh, htables, htables', hrest⟩

end Grammar
end ShiftReduce
