/-
What priorities mean in the tables.

`ByPriority` says what a state should do on a symbol with an input symbol behind it.  If
some of its transitions apply there, going by their lookaheads as they are before anything
is settled, it does what the one of the highest priority says.  If none applies it does
nothing, or what all transitions on the symbol say that are left.  The second happens where
compacting took the lookahead away.  `decide?_byPriority` is the statement that tables do
so.

It comes from three facts about one state.  A transition that is foremost somewhere is left
and still applies there.  What is left and applies is a transition that applied before,
unless it lost its lookahead to compacting.  And with the end of the input ahead nothing
looks ahead at all, so that no part of an entry depends on what is behind it.
-/
import ShiftReduce.Proofs.Table.Answers
import ShiftReduce.Proofs.Table.Rows

namespace ShiftReduce
namespace Lookahead

theorem admits_singleton_iff {l : Lookahead} (h : l.size ≤ 1) {u : SymbolId} :
    l.Admits [u] ↔ l.Allows u := by
  rcases eq_any_or_singleton h with rfl | ⟨s, rfl⟩
  · exact ⟨fun _ => allows_any u, fun _ => admits_any [u]⟩
  · rw [allows_singleton]
    constructor
    · intro hadmits
      obtain ⟨x, hx, hmem⟩ := hadmits 0 s rfl
      cases hx
      exact hmem
    · intro hmem i s' hs'
      cases i with
      | zero =>
        cases hs'
        exact ⟨u, rfl, hmem⟩
      | succ i => cases hs'

end Lookahead

namespace Refinement

variable {v : Survey}

/-! ## What is left of the transitions of a state -/

/-- Settling takes no input away on a symbol where nothing looks ahead: what a transition
claims without a lookahead cannot be taken from another. -/
theorem any_of_settled {ts kept : List Transition} {verdicts : List (Transition × Transition)}
    (h : settleTransitions v ts = .ok (kept, verdicts)) {x : SymbolId}
    (hany : ∀ t ∈ ts, t.symbol = x → t.lookahead = .any) :
    ∀ t ∈ kept, t.symbol = x → t.lookahead = .any := by
  obtain ⟨m, hm, hkept⟩ := settleTransitions_eq_ok h
  have step : ∀ (m m' : Ledger) (low high : Nat), GivesWay v m low high m' →
      (∀ t ∈ m.transitions, t.symbol = x → t.lookahead = .any) →
        ∀ t ∈ m'.transitions, t.symbol = x → t.lookahead = .any := by
    rintro m _ low high ⟨lower, higher, _, _, hlow, hhigh, hconflict, _, _, _, rfl⟩ hany t ht hx
    rcases List.mem_or_eq_of_mem_set ht with ht | rfl
    · exact hany t ht hx
    · obtain ⟨_, hsymbol, _, _⟩ := Transition.conflictsWith_iff.mp hconflict
      have hlower := hany lower (List.mem_of_getElem? hlow) hx
      have hhigher := hany higher (List.mem_of_getElem? hhigh) (hsymbol ▸ hx)
      rcases lower.lookahead_withLookahead (lower.lookahead.without v.grammar higher.lookahead)
        with e | e
      · rw [e, hhigher]
        exact hlower
      · exact e
  have hall : ∀ t ∈ m.transitions, t.symbol = x → t.lookahead = .any := by
    refine foldlM_induction
      (fun m : Ledger => ∀ t ∈ m.transitions, t.symbol = x → t.lookahead = .any)
      (fun pair _ m m' hP hstep => ?_) hany hm
    rcases settle_eq_ok hstep with rfl | hway | hway
    · exact hP
    · exact step m m' _ _ hway hP
    · exact step m m' _ _ hway hP
  intro t ht
  obtain ⟨i, hi, _⟩ := (hkept t).mp ht
  exact hall t (List.mem_of_getElem? hi)

theorem any_of_left {ts kept : List Transition} {verdicts : List (Transition × Transition)}
    (h : settleTransitions v ts = .ok (kept, verdicts)) {x : SymbolId}
    (hany : ∀ t ∈ ts, t.symbol = x → t.lookahead = .any) :
    ∀ t ∈ compactTransitions (buryTransitions kept), t.symbol = x → t.lookahead = .any := by
  intro t' ht' hx
  obtain ⟨t, ht, rfl⟩ := List.mem_map.mp ht'
  rw [Transition.symbol_of_edge (edge_compacted _ t)] at hx
  split
  · rcases t.lookahead_withLookahead .any with e | e
    · exact e
    · exact e
  · exact any_of_settled h hany t (List.mem_filter.mp ht).1 hx

section Left

variable (wf : v.grammar.WellFormed) {ts kept : List Transition}
  {verdicts : List (Transition × Transition)} (ready : Ready v ts)
  (h : settleTransitions v ts = .ok (kept, verdicts))

include wf ready h

theorem left_of_foremost {u : SymbolId} (hu : v.grammar.isTerminal u = true) {t : Transition}
    (ht : Foremost v ts u t) :
    ∃ t' ∈ compactTransitions (buryTransitions kept), t'.edge = t.edge ∧ t'.AppliesAt u := by
  obtain ⟨w, hw, hedge, happlies⟩ := buried_of_foremost wf ready h hu ht
  refine ⟨_, List.mem_map.mpr ⟨w, hw, rfl⟩, (edge_compacted _ w).trans hedge, ?_⟩
  split
  · refine ⟨?_, ?_⟩
    · rw [Transition.carriesLookahead_of_edge (w.edge_withLookahead .any)]
      exact happlies.1
    · rw [Transition.lookahead_withLookahead_of_carries happlies.1]
      exact Lookahead.allows_any u
  · exact happlies

/-- What is left and applies has applied before, or else there is but one outcome left on
its symbol. -/
theorem left_cases {t' : Transition} (ht' : t' ∈ compactTransitions (buryTransitions kept))
    {u : SymbolId} (happlies : t'.AppliesAt u) :
    (∃ t ∈ ts, t.symbol = t'.symbol ∧ t.AppliesAt u) ∨
      ∀ w ∈ compactTransitions (buryTransitions kept), w.symbol = t'.symbol →
        w.sameOutcome t' = true := by
  obtain ⟨t, ht, rfl⟩ := List.mem_map.mp ht'
  by_cases hsettled : isSettled (buryTransitions kept) t = true
  · right
    intro w' hw' hsymbol
    obtain ⟨w, hw, rfl⟩ := List.mem_map.mp hw'
    rw [Transition.symbol_of_edge (edge_compacted _ w),
      Transition.symbol_of_edge (edge_compacted _ t)] at hsymbol
    rw [Transition.sameOutcome_of_edge (edge_compacted _ w) (edge_compacted _ t)]
    have hsame := List.all_eq_true.mp hsettled w hw
    rw [hsymbol, bne_self_eq_false, Bool.false_or] at hsame
    exact hsame
  · left
    rw [if_neg hsettled] at happlies ⊢
    obtain ⟨t₀, ht₀, htrim⟩ := trimmed_of_kept wf h (List.mem_filter.mp ht).1
    exact ⟨t₀, ht₀, (Transition.symbol_of_edge htrim.edge_eq).symm,
      htrim.appliesAt (ready.simple t₀ ht₀) happlies⟩

end Left

end Refinement

namespace Automaton

variable {g : Grammar} {a b : Automaton}

/-- What a transition does has nothing to do with its lookahead. -/
theorem action?_of_edge {t u : Transition} (h : t.edge = u.edge) :
    a.action? g t = a.action? g u := by
  have horigin := Transition.origin_of_edge h
  have hmove := Transition.move_of_edge h
  rw [action?, action?, horigin]
  cases ht : t.move <;> cases hu : u.move <;> rw [ht, hu] at hmove <;> cases hmove
  all_goals rfl

theorem eq_accept_of_bystander {t : Transition} {action : Action}
    (h : a.action? g t = .ok (some action)) (hbystander : t.move.carriesLookahead = false) :
    action = .accept ∧ t.kind = .accept := by
  unfold action? at h
  unfold Transition.kind
  cases hm : t.move with
  | accept =>
    rw [hm] at h
    cases h
    exact ⟨rfl, rfl⟩
  | goto target =>
    rw [hm] at h
    cases h
  | shift target l =>
    rw [hm] at hbystander
    cases hbystander
  | reduce l =>
    rw [hm] at hbystander
    cases hbystander

/-- What a state does on a symbol with an input symbol behind it, going by priority.  Of the
transitions `ts` of the state the lookaheads are not settled yet, and `left` are those left
in the end. -/
structure ByPriority (g : Grammar) (a : Automaton) (ts left : List Transition) (x u : SymbolId)
    (found : Option Action) : Prop where
  /-- One of those that apply has the highest priority. -/
  exists_foremost : (∃ t ∈ ts, t.symbol = x ∧ t.AppliesAt u) →
    ∃ t, Refinement.Foremost (.make g a) ts u t ∧ t.symbol = x
  /-- That one decides. -/
  foremost : ∀ t, Refinement.Foremost (.make g a) ts u t → t.symbol = x →
    ∃ action, a.action? g t = .ok (some action) ∧ found = some action
  /-- If none applies there is nothing to do, or accept where the input ends, or there is
  one thing that all shifts and reductions say that are left. -/
  idle : (∀ t ∈ ts, t.symbol = x → ¬ t.AppliesAt u) →
    found = none ∨ x = .endMarker ∧ found = some .accept ∨
      ∃ action, found = some action ∧
        (∃ t ∈ left, t.symbol = x ∧ t.move.carriesLookahead = true) ∧
        ∀ t ∈ left, t.symbol = x → t.move.carriesLookahead = true →
          a.action? g t = .ok (some action)

/-- A state goes by priority if it does what the transitions say that are left. -/
theorem byPriority_of_left (wf : g.WellFormed) {ts kept : List Transition}
    {verdicts : List (Transition × Transition)} (ready : Refinement.Ready (.make g a) ts)
    (h : Refinement.settleTransitions (.make g a) ts = .ok (kept, verdicts))
    (hitem : ∀ t ∈ ts, ∃ item, a.item t.origin = .ok item) {x u : SymbolId}
    (hu : g.isTerminal u = true) {found : Option Action}
    (hfound : ∀ action, found = some action ↔
      ∃ t ∈ Refinement.compactTransitions (Refinement.buryTransitions kept), t.symbol = x ∧
        t.lookahead.Allows u ∧ a.action? g t = .ok (some action)) :
    ByPriority g a ts (Refinement.compactTransitions (Refinement.buryTransitions kept)) x u
      found := by
  refine
    { exists_foremost := fun ⟨t, ht, hsymbol, happlies⟩ => ?_
      foremost := fun t ht hsymbol => ?_
      idle := fun hidle => ?_ }
  · obtain ⟨t', ht', hsymbol'⟩ := Refinement.exists_foremost ready ht happlies
    exact ⟨t', ht', hsymbol'.trans hsymbol⟩
  · obtain ⟨t', ht', hedge, happlies⟩ := Refinement.left_of_foremost wf ready h hu ht
    obtain ⟨action, haction⟩ := exists_action_of_carries (g := g) (hitem t ht.1) ht.2.1.1
    refine ⟨action, haction, (hfound action).mpr ⟨t', ht', ?_, happlies.2, ?_⟩⟩
    · rw [Transition.symbol_of_edge hedge]
      exact hsymbol
    · rw [action?_of_edge hedge]
      exact haction
  · cases hcase : found with
    | none => exact Or.inl rfl
    | some action =>
      right
      obtain ⟨t', ht', hsymbol, hallows, haction⟩ := (hfound action).mp hcase
      by_cases hcarries : t'.move.carriesLookahead = true
      · rcases Refinement.left_cases wf ready h ht' ⟨hcarries, hallows⟩ with
          ⟨t, ht, hsymbol', happlies⟩ | hone
        · exact absurd happlies (hidle t ht (hsymbol'.trans hsymbol))
        · refine Or.inr ⟨action, rfl, ⟨t', ht', hsymbol, hcarries⟩, fun w hw hsymbol' _ => ?_⟩
          rw [action?_eq_of_sameOutcome (hone w hw (hsymbol'.trans hsymbol.symm))]
          exact haction
      · rw [Bool.not_eq_true] at hcarries
        obtain ⟨rfl, hkind⟩ := eq_accept_of_bystander haction hcarries
        obtain ⟨t, ht, hedge, _⟩ := Refinement.exists_stem_of_settled wf ready h ht'
        have hmarker := ready.accept t ht (Transition.kind_of_edge hedge ▸ hkind)
        rw [← Transition.symbol_of_edge hedge, hsymbol] at hmarker
        exact Or.inl ⟨hmarker, rfl⟩

/-! ## The end of the input -/

/-- No lookahead is called for behind the end of the input. -/
theorem eq_any_of_lookaheadOf {v : Survey} {t : Transition} {l : Lookahead}
    (h : v.lookaheadOf t = .ok (some l)) (hmarker : t.symbol = .endMarker)
    (hkind : t.kind ≠ .shift) : l = .any := by
  unfold Survey.lookaheadOf at h
  split at h
  · rename_i target l' hmove
    refine absurd ?_ hkind
    rw [Transition.kind, hmove]
    rfl
  · obtain ⟨item, _, h⟩ := bind_eq_ok.mp h
    obtain ⟨left, _, h⟩ := bind_eq_ok.mp h
    obtain ⟨l', hl, h⟩ := bind_eq_ok.mp h
    cases h
    rw [hmarker, Checked.reduceLookahead, if_pos rfl] at hl
    exact (Except.ok.inj hl).symm
  · cases h
  · cases h

/-- Nothing looks ahead where the input ends. -/
theorem Canonical.any_at_endMarker (hc : Canonical g a) (wf : g.WellFormed) {n : Nat} {s : State}
    (hs : a.states[n]? = some s) {pruned ahead : List Transition} {pairs : List (Nat × Nat)}
    (hpruned : Refinement.pruneTransitions (.make g a) s.transitions = .ok pruned)
    (hahead : Refinement.lookAheadTransitions (.make g a) pruned = .ok (ahead, pairs)) :
    ∀ t ∈ ahead, t.symbol = .endMarker → t.lookahead = .any := by
  intro t ht hmarker
  have hkind := (hc.ready wf hs hpruned hahead).shift t ht
  obtain ⟨t₀, ht₀, htouched⟩ := (Refinement.touchedAll_lookAhead hahead).exists_of_mem ht
  have hany := hc.any_lookahead (List.mem_of_getElem? hs) ((mem_of_retain hpruned).mp ht₀).1
  rcases htouched with rfl | hlook
  · exact hany
  · have hedge := Survey.edge_of_lookInto hlook
    rw [Transition.kind_of_edge hedge] at hkind
    rw [Transition.symbol_of_edge hedge] at hmarker hkind
    obtain ⟨found, hfound, e⟩ := bind_eq_ok.mp hlook
    cases found with
    | none =>
      cases e
      exact hany
    | some l =>
      cases e
      obtain rfl := eq_any_of_lookaheadOf hfound hmarker fun e => hkind e hmarker
      exact (t₀.lookahead_withLookahead .any).elim id id

/-- Acceptance is under the name of the end marker, in the states that accept. -/
theorem Reads.accept_iff (wf : g.WellFormed) {tables : Tables} (h : Reads g a tables)
    (htables : a.tables g = .ok tables) {n : Nat} {s : State} (hs : a.states[n]? = some s)
    (hsymbol : ∀ t ∈ s.transitions, t.symbol.index < g.symbols.length)
    (haccept : ∀ t ∈ s.transitions, t.kind = .accept → t.symbol = .endMarker)
    (hany : ∀ t ∈ s.transitions, t.symbol = .endMarker → t.lookahead = .any) (name : String) :
    tables.action? n name = some .accept ↔
      name = Symbol.endName ∧ ∃ t ∈ s.transitions, t.kind = .accept := by
  constructor
  · intro hfound
    obtain ⟨t, ht, _, hname, _⟩ := exists_transition_of_action? htables hs hfound
    have hdecide : tables.decide? n [name] = some .accept := by
      rw [Tables.decide?, hfound]
      rfl
    obtain rfl := Grammar.nameOf_of_name? hname
    obtain ⟨u, hu, hsame, _, hu'⟩ := (h.decide_iff n s t.symbol [] .accept hs (hsymbol t ht)
      fun y hy => absurd hy List.not_mem_nil).mp hdecide
    have hkind : u.kind = .accept := by
      rw [Transition.kind, of_action?_accept hu']
      rfl
    rw [← hsame, haccept u hu hkind, wf.nameOf_endMarker]
    exact ⟨rfl, u, hu, hkind⟩
  · rintro ⟨rfl, t, ht, hkind⟩
    have hx := Grammar.lt_of_isTerminal wf.isTerminal_endMarker
    rw [← wf.nameOf_endMarker]
    refine (h.action?_iff wf htables hs hx hany).mpr ⟨t, ht, haccept t ht hkind, ?_⟩
    unfold Transition.kind at hkind
    unfold action?
    cases hm : t.move <;> rw [hm] at hkind <;> cases hkind

/-- A state accepts if it did before its transitions were settled. -/
theorem Reads.accept_iff_of_settled (wf : g.WellFormed) {tables : Tables} (h : Reads g b tables)
    (htables : b.tables g = .ok tables) {n : Nat} {s' : State} (hs' : b.states[n]? = some s')
    {ts kept : List Transition} {verdicts : List (Transition × Transition)}
    (ready : Refinement.Ready (.make g a) ts)
    (hsettle : Refinement.settleTransitions (.make g a) ts = .ok (kept, verdicts))
    (hleft : s'.transitions =
      Refinement.compactTransitions (Refinement.buryTransitions kept))
    (hany : ∀ t ∈ s'.transitions, t.symbol = .endMarker → t.lookahead = .any) (name : String) :
    tables.action? n name = some .accept ↔
      name = Symbol.endName ∧ ∃ t ∈ ts, t.kind = .accept := by
  have stem : ∀ t' ∈ s'.transitions, ∃ t ∈ ts, t'.edge = t.edge := by
    intro t' ht'
    rw [hleft] at ht'
    obtain ⟨t, ht, hedge, _⟩ := Refinement.exists_stem_of_settled wf ready hsettle ht'
    exact ⟨t, ht, hedge⟩
  have hsymbol : ∀ t' ∈ s'.transitions, t'.symbol.index < g.symbols.length := by
    intro t' ht'
    obtain ⟨t, ht, hedge⟩ := stem t' ht'
    rw [Transition.symbol_of_edge hedge]
    exact ready.symbol t ht
  have haccept : ∀ t' ∈ s'.transitions, t'.kind = .accept → t'.symbol = .endMarker := by
    intro t' ht' hkind
    obtain ⟨t, ht, hedge⟩ := stem t' ht'
    rw [Transition.symbol_of_edge hedge]
    exact ready.accept t ht (Transition.kind_of_edge hedge ▸ hkind)
  rw [h.accept_iff wf htables hs' hsymbol haccept hany name]
  refine and_congr_right fun _ => ⟨?_, ?_⟩
  · rintro ⟨t', ht', hkind⟩
    obtain ⟨t, ht, hedge⟩ := stem t' ht'
    exact ⟨t, ht, Transition.kind_of_edge hedge ▸ hkind⟩
  · rintro ⟨t, ht, hkind⟩
    have hbystander : t.move.carriesLookahead = false := by
      rw [← Bool.not_eq_true, Transition.carriesLookahead_iff, hkind]
      simp
    refine ⟨t, ?_, hkind⟩
    rw [hleft]
    exact Refinement.left_of_bystander hsettle ht hbystander

/-- What was pruned and looked into has the items of the automaton it stems from. -/
theorem Canonical.exists_item_ahead (hc : Canonical g a) {n : Nat} {s : State}
    (hs : a.states[n]? = some s) {pruned ahead : List Transition} {pairs : List (Nat × Nat)}
    (hpruned : Refinement.pruneTransitions (.make g a) s.transitions = .ok pruned)
    (hahead : Refinement.lookAheadTransitions (.make g a) pruned = .ok (ahead, pairs)) :
    ∀ t ∈ ahead, ∃ item, a.item t.origin = .ok item := by
  intro t ht
  obtain ⟨t₀, ht₀, htouched⟩ := (Refinement.touchedAll_lookAhead hahead).exists_of_mem ht
  obtain ⟨_, item, _, hitem, _⟩ := hc.prescribes_of_mem hs ((mem_of_retain hpruned).mp ht₀).1
  rw [Transition.origin_of_edge htouched.edge_eq]
  exact ⟨item, hitem⟩

/-! ## A state and what is left of it -/

section State

variable (hc : Canonical g a) (wf : g.WellFormed) (hsharpens : Sharpens b a) {tables : Tables}
  (hreads : Reads g b tables) {n : Nat} {s s' : State} (hs : a.states[n]? = some s)
  (hs' : b.states[n]? = some s')

include hc wf hsharpens hs hs'

theorem Sharpens.exists_item {t' : Transition} (ht' : t' ∈ s'.transitions) :
    ∃ item, a.item t'.origin = .ok item := by
  obtain ⟨t, ht, hedge⟩ := hsharpens.exists_stem hs hs' ht'
  have hitem := (hc.allGrounded wf s (List.mem_of_getElem? hs) t ht).item
  rw [← Transition.origin_of_edge hedge] at hitem
  exact hitem

include hreads

/-- What tables say is said by transitions, with the actions they have in the automaton that
was refined. -/
theorem Sharpens.decide?_iff {x u : SymbolId} (hx : g.isTerminal x = true)
    (hu : g.isTerminal u = true) (action : Action) :
    tables.decide? n [g.nameOf x, g.nameOf u] = some action ↔
      ∃ t ∈ s'.transitions, t.symbol = x ∧ t.lookahead.Allows u ∧
        a.action? g t = .ok (some action) := by
  have hrest : ∀ y ∈ [u], y.index < g.symbols.length := fun y hy => by
    rw [List.mem_singleton.mp hy]
    exact Grammar.lt_of_isTerminal hu
  refine (hreads.decide_iff n s' x [u] action hs' (Grammar.lt_of_isTerminal hx) hrest).trans ?_
  refine exists_congr fun t' => and_congr_right fun ht' => and_congr_right fun _ => ?_
  rw [Lookahead.admits_singleton_iff ((hsharpens.at hs hs').2.2 t' ht').2,
    hsharpens.action?_eq (hsharpens.exists_item hc wf hs hs' ht')]

theorem Sharpens.action?_iff (htables : b.tables g = .ok tables) {x u : SymbolId}
    (hx : g.isTerminal x = true)
    (hany : ∀ t ∈ s'.transitions, t.symbol = x → t.lookahead = .any) (action : Action) :
    tables.action? n (g.nameOf x) = some action ↔
      ∃ t ∈ s'.transitions, t.symbol = x ∧ t.lookahead.Allows u ∧
        a.action? g t = .ok (some action) := by
  rw [hreads.action?_iff wf htables hs' (Grammar.lt_of_isTerminal hx) hany]
  refine exists_congr fun t' => and_congr_right fun ht' => and_congr_right fun hsymbol => ?_
  rw [hany t' ht' hsymbol, hsharpens.action?_eq (hsharpens.exists_item hc wf hs hs' ht'),
    and_iff_right (Lookahead.allows_any u)]

end State

end Automaton

namespace Action

def isShift : Action → Bool
  | shift _ => true
  | accept | reduce _ _ _ | lookahead _ _ => false

theorem exists_of_isShift {entry : Option Action} (h : entry.any isShift = true) :
    ∃ next, entry = some (.shift next) := by
  obtain ⟨action, rfl, hshift⟩ := (Option.any_eq_true _ _).mp h
  cases action with
  | shift next => exact ⟨next, rfl⟩
  | accept => cases hshift
  | reduce rule left symbols => cases hshift
  | lookahead table wildcard => cases hshift

end Action

namespace Grammar

/-- Tables made with priorities do on every symbol, whatever is behind it, what the rule of
the highest priority says of those that apply. -/
theorem decide?_byPriority {g : Grammar} (built : g.Built) (fits : g.Fits) {tables : Tables}
    (h : g.tables .refined = .ok tables) :
    ∃ (pruned ahead b : Automaton) (looks events : List Event),
      (Automaton.build g).prune (.make g (.build g)) = .ok pruned ∧
        pruned.lookAhead (.make g (.build g)) = .ok (ahead, looks) ∧
          (Automaton.build g).refine g = .ok (b, events) ∧
            ∀ q, q < (Automaton.build g).size → ∃ s s' : State,
              ahead.states[q]? = some s ∧ b.states[q]? = some s' ∧
                (∀ x ∈ g.terminals, ∀ u ∈ g.inputSymbols,
                  (Automaton.build g).ByPriority g s.transitions s'.transitions x u
                    (tables.decide? q [g.nameOf x, g.nameOf u])) ∧
                (∀ u ∈ g.inputSymbols,
                  (Automaton.build g).ByPriority g s.transitions s'.transitions .endMarker u
                    (tables.action? q Symbol.endName)) ∧
                ∀ name, tables.action? q name = some .accept ↔
                  name = Symbol.endName ∧ ∃ t ∈ s.transitions, t.kind = .accept := by
  have wf := built.wellFormed fits.symbols fits.rules
  have hc := wf.canonical fits.states
  obtain ⟨pruned, ahead, settled, looks, verdicts, events, hpruned, hahead, hsettled, hrefine,
    hcheck, htables⟩ := wf.exists_passes fits.states h
  have hsharpens := hc.sharpens_refine hrefine
  have hreads := hc.tables_read wf hsharpens hcheck htables
  refine ⟨pruned, ahead, _, looks, events, hpruned, hahead, hrefine, fun q hq => ?_⟩
  have hprepared := Automaton.reworked_ahead hpruned hahead
  have hsettling := Automaton.reworked_behind hsettled
  have hs₀ : (Automaton.build g).states[q]? = some _ := List.getElem?_eq_getElem hq
  obtain ⟨s, hs⟩ := hprepared.exists_at hs₀
  obtain ⟨s', hs'⟩ := hsettling.exists_at hs
  refine ⟨s, s', hs, hs', ?_⟩
  obtain ⟨_, _, ts, pairs, hprune, hlook⟩ := hprepared.at hs₀ hs
  obtain ⟨_, _, kept, verdicts', hsettle, hleft⟩ := hsettling.at hs hs'
  have ready := hc.ready wf hs₀ hprune hlook
  have hitem := hc.exists_item_ahead hs₀ hprune hlook
  have hany : ∀ t ∈ s'.transitions, t.symbol = .endMarker → t.lookahead = .any := by
    rw [hleft]
    exact Refinement.any_of_left hsettle (hc.any_at_endMarker wf hs₀ hprune hlook)
  refine ⟨fun x hx u hu => ?_, fun u hu => ?_, fun name => ?_⟩
  · have hu := wf.mem_inputSymbols.mp hu
    have hfound := hsharpens.decide?_iff hc wf hreads hs₀ hs' (wf.mem_terminals.mp hx).1 hu
    rw [hleft] at hfound ⊢
    exact Automaton.byPriority_of_left wf ready hsettle hitem hu hfound
  · have hu := wf.mem_inputSymbols.mp hu
    have hfound := hsharpens.action?_iff hc wf hreads hs₀ hs' htables (u := u)
      wf.isTerminal_endMarker hany
    rw [wf.nameOf_endMarker, hleft] at hfound
    rw [hleft]
    exact Automaton.byPriority_of_left wf ready hsettle hitem hu hfound
  · exact hreads.accept_iff_of_settled wf htables hs' ready hsettle hleft hany name

/-- Behind `if stmt`, with `else x` ahead, `branching` shifts: the longer rule has priority. -/
theorem decide?_byPriority_branching : ∃ (g : Grammar) (tables : Tables)
    (ts left : List Transition) (next : Nat), ofDefinitions branching = .ok g ∧
      g.tables .refined = .ok tables ∧
        (Automaton.build g).ByPriority g ts left (Handle.ofNat 4) (Handle.ofNat 5)
          (some (.shift next)) := by
  obtain ⟨g, hg, h⟩ : ∃ g, ofDefinitions branching = .ok g ∧
      decide (g.Fits ∧ 4 < (Automaton.build g).size ∧ Handle.ofNat 4 ∈ g.terminals ∧
        Handle.ofNat 5 ∈ g.inputSymbols ∧ ((g.tables .refined).toOption.any fun tables =>
          (tables.decide? 4 [g.nameOf (Handle.ofNat 4), g.nameOf (Handle.ofNat 5)]).any
            Action.isShift) = true) = true := exists_ok_of_any (by decide +kernel)
  obtain ⟨fits, hsize, hx, hu, htables⟩ := of_decide_eq_true h
  obtain ⟨tables, htables, hshift⟩ := exists_ok_of_any htables
  obtain ⟨_, _, _, _, _, _, _, _, hall⟩ := decide?_byPriority (.ofDefinitions hg) fits htables
  obtain ⟨s, s', _, _, hterminals, _⟩ := hall 4 hsize
  have hpriority := hterminals _ hx _ hu
  obtain ⟨next, hfound⟩ := Action.exists_of_isShift hshift
  rw [hfound] at hpriority
  exact ⟨g, tables, s.transitions, s'.transitions, next, hg, htables, hpriority⟩

end Grammar
end ShiftReduce
