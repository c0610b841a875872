/-
Which conflicts refinement can settle.

`Resolvable` says of the transitions of a state, as they are before anything is settled,
when priorities settle all their conflicts: whatever the input, the transitions that
apply and have the highest priority of those that do all have one outcome.  The order in
which pairs are visited has no part in it.  `not_conflicting_iff` is the reason that it is
the right criterion: after settling, burying and compacting a conflict is left exactly
where it fails.

What settling leaves of a transition decides both directions.  A transition that is
foremost somewhere is kept there, so two of them with different outcomes are in conflict
to the end.  And of two that are in conflict in the end neither has the higher priority at
the input they share, so both are foremost there, since whatever is foremost there differs
from one of them.
-/
import ShiftReduce.Proofs.Refinement.Settling
import Mathlib.Data.Set.Finite.List
import Mathlib.Data.Set.Finite.Lemmas

namespace ShiftReduce

namespace Transition

theorem sameOutcome_trans {t u w : Transition} (h : t.sameOutcome u = true)
    (h' : u.sameOutcome w = true) : t.sameOutcome w = true := by
  unfold sameOutcome at *
  cases ht : t.move <;> cases hu : u.move <;> cases hw : w.move <;>
    simp only [ht, hu, hw, beq_iff_eq, Bool.false_eq_true] at *
  · exact h.trans h'
  · exact h.trans h'
  · exact h.trans h'

theorem sameOutcome_of_kind_ne {t u : Transition} (h : t.kind ≠ u.kind) :
    t.sameOutcome u = false := by
  unfold sameOutcome
  unfold kind at h
  cases ht : t.move <;> cases hu : u.move <;> rw [ht, hu] at h <;>
    first
    | rfl
    | exact absurd rfl h

end Transition

namespace Refinement

/-- Priorities settle all conflicts of these transitions. -/
structure Resolvable (v : Survey) (ts : List Transition) : Prop where
  /-- Where the input ends the parser does not both accept and reduce. -/
  accept : ¬ ((∃ t ∈ ts, t.kind = .accept) ∧ ∃ t ∈ ts, t.kind = .reduce ∧ t.symbol = .endMarker)
  /-- Of the transitions on one symbol that apply at an input symbol, those with the
  highest priority have the same outcome. -/
  foremost : ∀ u ∈ v.grammar.inputSymbols, ∀ t t' : Transition, Foremost v ts u t →
    Foremost v ts u t' → t.symbol = t'.symbol → t.sameOutcome t' = true

/-- What settling starts from. -/
structure Ready (v : Survey) (ts : List Transition) : Prop where
  state : ∀ t ∈ ts, ∀ u ∈ ts, t.origin.state = u.origin.state
  symbol : ∀ t ∈ ts, t.symbol.index < v.grammar.symbols.length
  simple : ∀ t ∈ ts, t.lookahead.Simple v.grammar
  alive : ∀ t ∈ ts, t.lookahead.isDead = false
  priority : ∀ t ∈ ts, ∃ p, v.priority t = .ok p
  /-- A goto or an accept is in nobody's way, but for an accept where a rule can be
  reduced by as well. -/
  apart : ∀ t ∈ ts, ∀ u ∈ ts, t.symbol = u.symbol → t.sameOutcome u = false →
    t.move.carriesLookahead = false → t.kind = .accept ∧ u.kind = .reduce
  accept : ∀ t ∈ ts, t.kind = .accept → t.symbol = .endMarker
  shift : ∀ t ∈ ts, t.kind = .shift → t.symbol ≠ .endMarker

/-! ## Compacting -/

theorem isSettled_eq_false {ts : List Transition} {t u : Transition} (hu : u ∈ ts)
    (hsymbol : t.symbol = u.symbol) (houtcome : t.sameOutcome u = false) :
    isSettled ts t = false := by
  rw [Bool.eq_false_iff, isSettled, Ne, List.all_eq_true]
  intro hall
  have hsame := hall u hu
  rw [hsymbol, bne_self_eq_false, Bool.false_or, Transition.sameOutcome_comm, houtcome] at hsame
  cases hsame

theorem edge_compacted (ts : List Transition) (t : Transition) :
    (if isSettled ts t then t.withLookahead .any else t).edge = t.edge := by
  split
  · exact t.edge_withLookahead .any
  · rfl

/-- To take away lookaheads that decide nothing changes nothing about conflicts. -/
theorem conflicting_compact_iff {ts : List Transition} :
    State.Conflicting (compactTransitions ts) ↔ State.Conflicting ts := by
  constructor
  · rintro ⟨t', ht', u', hu', hconflict⟩
    obtain ⟨t, ht, rfl⟩ := List.mem_map.mp ht'
    obtain ⟨u, hu, rfl⟩ := List.mem_map.mp hu'
    obtain ⟨_, hsymbol, _, houtcome⟩ := Transition.conflictsWith_iff.mp hconflict
    rw [Transition.symbol_of_edge (edge_compacted ts t),
      Transition.symbol_of_edge (edge_compacted ts u)] at hsymbol
    rw [Transition.sameOutcome_of_edge (edge_compacted ts t) (edge_compacted ts u)] at houtcome
    have houtcome' : u.sameOutcome t = false := by
      rw [Transition.sameOutcome_comm]
      exact houtcome
    rw [isSettled_eq_false hu hsymbol houtcome, isSettled_eq_false ht hsymbol.symm houtcome']
      at hconflict
    exact ⟨t, ht, u, hu, hconflict⟩
  · rintro ⟨t, ht, u, hu, hconflict⟩
    obtain ⟨_, hsymbol, _, houtcome⟩ := Transition.conflictsWith_iff.mp hconflict
    have houtcome' : u.sameOutcome t = false := by
      rw [Transition.sameOutcome_comm]
      exact houtcome
    refine ⟨t, List.mem_map.mpr ⟨t, ht, ?_⟩, u, List.mem_map.mpr ⟨u, hu, ?_⟩, hconflict⟩
    · rw [isSettled_eq_false hu hsymbol houtcome]
      rfl
    · rw [isSettled_eq_false ht hsymbol.symm houtcome']
      rfl

/-! ## The highest priority -/

variable {v : Survey}

theorem exists_foremost {ts : List Transition} (ready : Ready v ts) {t : Transition} (ht : t ∈ ts)
    {u : SymbolId} (happlies : t.AppliesAt u) :
    ∃ t', Foremost v ts u t' ∧ t'.symbol = t.symbol := by
  have hfinite : {t' | t' ∈ ts ∧ t'.symbol = t.symbol ∧ t'.AppliesAt u}.Finite :=
    (List.finite_toSet ts).subset fun t' ht' => ht'.1
  obtain ⟨t', ⟨ht', hsymbol, happlies'⟩, hmax⟩ := Set.exists_max_image _
    (fun t' => (v.priority t').toOption.getD 0) hfinite ⟨t, ht, rfl, happlies⟩
  obtain ⟨p, hp⟩ := ready.priority t' ht'
  refine ⟨t', ⟨ht', happlies', p, hp, fun w hw hsymbol' hw' => ?_⟩, hsymbol⟩
  obtain ⟨q, hq⟩ := ready.priority w hw
  have hle := hmax w ⟨hw, hsymbol'.trans hsymbol, hw'⟩
  simp only [hp, hq] at hle
  exact ⟨q, hq, hle⟩

/-- What has the priority of a foremost transition is foremost where it applies. -/
theorem Foremost.of_le {ts : List Transition} {u : SymbolId} {t t' : Transition}
    (h : Foremost v ts u t) (ht' : t' ∈ ts) (hsymbol : t'.symbol = t.symbol)
    (happlies : t'.AppliesAt u) {p q : Int} (hp : v.priority t = .ok p)
    (hq : v.priority t' = .ok q) (hle : p ≤ q) : Foremost v ts u t' := by
  obtain ⟨_, _, r, hr, hmax⟩ := h
  rw [hp] at hr
  cases hr
  refine ⟨ht', happlies, q, hq, fun w hw hsymbol' hw' => ?_⟩
  obtain ⟨r, hr, hle'⟩ := hmax w hw (hsymbol'.trans hsymbol) hw'
  exact ⟨r, hr, Int.le_trans hle' hle⟩

/-! ## The criterion -/

section Criterion

variable (wf : v.grammar.WellFormed) {ts kept : List Transition}
  {verdicts : List (Transition × Transition)} (ready : Ready v ts)
  (h : settleTransitions v ts = .ok (kept, verdicts))

include wf ready h

/-- What is left in the end is a transition from before, with one set of input symbols as
its lookahead at most. -/
theorem exists_stem_of_settled {t' : Transition}
    (ht' : t' ∈ compactTransitions (buryTransitions kept)) :
    ∃ t ∈ ts, t'.edge = t.edge ∧ t'.lookahead.Simple v.grammar := by
  obtain ⟨w, hw, rfl⟩ := List.mem_map.mp ht'
  obtain ⟨t, ht, htrim⟩ := trimmed_of_kept wf h (List.mem_filter.mp hw).1
  refine ⟨t, ht, ?_⟩
  split
  · refine ⟨(w.edge_withLookahead .any).trans htrim.edge_eq, ?_⟩
    rcases w.lookahead_withLookahead .any with e | e
    · rw [e]
      exact Lookahead.simple_any v.grammar
    · rw [e]
      exact Lookahead.simple_any v.grammar
  · exact ⟨htrim.edge_eq, htrim.simple (ready.simple t ht)⟩

theorem buried_of_foremost {x : SymbolId} (hx : v.grammar.isTerminal x = true) {t : Transition}
    (ht : Foremost v ts x t) :
    ∃ t' ∈ buryTransitions kept, t'.edge = t.edge ∧ t'.AppliesAt x := by
  obtain ⟨t', ht', hedge, happlies⟩ := kept_of_foremost wf ready.simple h hx ht
  refine ⟨t', List.mem_filter.mpr ⟨ht', ?_⟩, hedge, happlies⟩
  rw [Lookahead.isDead_of_allows happlies.2]
  rfl

/-- Two transitions that are foremost at one input symbol are in conflict to the end,
unless they have one outcome. -/
theorem conflicting_of_foremost {x : SymbolId} (hx : v.grammar.isTerminal x = true)
    {t u : Transition} (ht : Foremost v ts x t) (hu : Foremost v ts x u)
    (hsymbol : t.symbol = u.symbol) (houtcome : t.sameOutcome u = false) :
    State.Conflicting (buryTransitions kept) := by
  obtain ⟨t', ht', hedge, happlies⟩ := buried_of_foremost wf ready h hx ht
  obtain ⟨u', hu', hedge', happlies'⟩ := buried_of_foremost wf ready h hx hu
  have rivals : Transition.Rivals x t' u' :=
    { state := by
        rw [Transition.origin_of_edge hedge, Transition.origin_of_edge hedge']
        exact ready.state t ht.1 u hu.1
      symbol := by
        rw [Transition.symbol_of_edge hedge, Transition.symbol_of_edge hedge']
        exact hsymbol
      outcome := by
        rw [Transition.sameOutcome_of_edge hedge hedge']
        exact houtcome
      left := happlies
      right := happlies' }
  exact ⟨t', ht', u', hu', rivals.conflictsWith⟩

/-- Where an accept and a reduction meet they are in conflict to the end: some reduction is
foremost there, and the accept gives nothing up. -/
theorem conflicting_of_accept {t u : Transition} (ht : t ∈ ts) (hu : u ∈ ts)
    (haccept : t.kind = .accept) (hreduce : u.kind = .reduce) (hsymbol : u.symbol = .endMarker) :
    State.Conflicting (buryTransitions kept) := by
  have hbystander : t.move.carriesLookahead = false := by
    rw [Bool.eq_false_iff, Ne, Transition.carriesLookahead_iff, haccept]
    decide
  have ht' : t ∈ buryTransitions kept := by
    refine List.mem_filter.mpr ⟨kept_of_bystander h ht hbystander, ?_⟩
    rw [ready.alive t ht]
    rfl
  obtain ⟨x, hx, hallows⟩ := (ready.simple u hu).exists_allowed wf (ready.alive u hu)
  obtain ⟨w, hw, hsymbol'⟩ := exists_foremost ready hu
    ⟨Transition.carriesLookahead_iff.mpr (Or.inl hreduce), hallows⟩
  obtain ⟨w', hw', hedge, happlies⟩ := buried_of_foremost wf ready h hx hw
  rw [hsymbol] at hsymbol'
  have hkind : w.kind = .reduce := by
    rcases Transition.carriesLookahead_iff.mp hw.2.1.1 with hkind | hkind
    · exact hkind
    · exact absurd hsymbol' (ready.shift w hw.1 hkind)
  refine ⟨t, ht', w', hw', Transition.conflictsWith_iff.mpr ⟨?_, ?_, ?_, ?_⟩⟩
  · rw [Transition.origin_of_edge hedge]
    exact ready.state t ht w hw.1
  · rw [Transition.symbol_of_edge hedge, ready.accept t ht haccept, hsymbol']
  · rw [Transition.lookahead_of_bystander hbystander]
    exact Lookahead.disjoint_of_allows (Lookahead.allows_any x) happlies.2
  · rw [Transition.sameOutcome_of_edge rfl hedge]
    exact Transition.sameOutcome_of_kind_ne (by rw [haccept, hkind]; decide)

/-- Two carriers of a lookahead that are in conflict when the dead are dropped are rivals at
some input symbol. -/
theorem exists_rivals {t u : Transition} (ht : t ∈ buryTransitions kept)
    (hu : u ∈ buryTransitions kept) (hconflict : t.conflictsWith u = true)
    (hcarries : t.move.carriesLookahead = true) (hcarries' : u.move.carriesLookahead = true) :
    ∃ x, v.grammar.isTerminal x = true ∧ Transition.Rivals x t u := by
  obtain ⟨hstate, hsymbol, hmeet, houtcome⟩ := Transition.conflictsWith_iff.mp hconflict
  obtain ⟨ht, halive⟩ := List.mem_filter.mp ht
  obtain ⟨hu, halive'⟩ := List.mem_filter.mp hu
  rw [Bool.not_eq_true'] at halive halive'
  obtain ⟨t₀, ht₀, htrim⟩ := trimmed_of_kept wf h ht
  obtain ⟨u₀, hu₀, htrim'⟩ := trimmed_of_kept wf h hu
  obtain ⟨x, hx, hallows, hallows'⟩ := Lookahead.exists_allowed_of_disjoint wf
    (htrim.simple (ready.simple t₀ ht₀)) (htrim'.simple (ready.simple u₀ hu₀)) halive halive' hmeet
  exact ⟨x, hx, hstate, hsymbol, houtcome, ⟨hcarries, hallows⟩, ⟨hcarries', hallows'⟩⟩

/-- What is foremost where two rivals are kept is not higher than they are: it differs from
one of them, and they have one priority. -/
theorem le_of_rivals {t u : Transition} (ht : t ∈ kept) (hu : u ∈ kept) {x : SymbolId}
    (hx : v.grammar.isTerminal x = true) (rivals : Transition.Rivals x t u) {w : Transition}
    (hw : Foremost v ts x w) (hstate : t.origin.state = w.origin.state)
    (hsymbol : t.symbol = w.symbol) {p q r : Int} (hp : v.priority t = .ok p)
    (hq : v.priority u = .ok q) (hr : v.priority w = .ok r) : r ≤ p := by
  obtain ⟨w', hw', hedge, happlies⟩ := kept_of_foremost wf ready.simple h hx hw
  rw [← priority_of_edge hedge] at hr
  rw [← Transition.origin_of_edge hedge] at hstate
  rw [← Transition.symbol_of_edge hedge] at hsymbol
  cases hsame : t.sameOutcome w' with
  | false =>
    have rivals' : Transition.Rivals x t w' := ⟨hstate, hsymbol, hsame, rivals.left, happlies⟩
    exact Int.not_lt.mp (not_lt_of_kept wf ready.simple h ht hw' rivals' hp hr)
  | true =>
    have hdiffer : u.sameOutcome w' = false := by
      rw [Bool.eq_false_iff]
      intro hsame'
      rw [Transition.sameOutcome_comm] at hsame'
      have houtcome := rivals.outcome
      rw [Transition.sameOutcome_trans hsame hsame'] at houtcome
      cases houtcome
    have rivals' : Transition.Rivals x u w' :=
      ⟨rivals.state.symm.trans hstate, rivals.symbol.symm.trans hsymbol, hdiffer, rivals.right,
        happlies⟩
    have hle : r ≤ q := Int.not_lt.mp (not_lt_of_kept wf ready.simple h hu hw' rivals' hq hr)
    have hle' : q ≤ p := Int.not_lt.mp (not_lt_of_kept wf ready.simple h ht hu rivals hp hq)
    exact Int.le_trans hle hle'

theorem foremost_of_rivals {t' u' : Transition} (ht' : t' ∈ kept) (hu' : u' ∈ kept) {x : SymbolId}
    (hx : v.grammar.isTerminal x = true) (rivals : Transition.Rivals x t' u') {t u : Transition}
    (ht : t ∈ ts) (hu : u ∈ ts) (htrim : Trimmed v.grammar t t')
    (htrim' : Trimmed v.grammar u u') : Foremost v ts x t := by
  have happlies := htrim.appliesAt (ready.simple t ht) rivals.left
  obtain ⟨w, hw, hsymbol⟩ := exists_foremost ready ht happlies
  obtain ⟨p, hp⟩ := ready.priority t ht
  obtain ⟨q, hq⟩ := ready.priority u hu
  obtain ⟨r, hr⟩ := ready.priority w hw.1
  have hstate : t'.origin.state = w.origin.state := by
    rw [Transition.origin_of_edge htrim.edge_eq]
    exact ready.state t ht w hw.1
  have hsymbol' : t'.symbol = w.symbol := by
    rw [Transition.symbol_of_edge htrim.edge_eq, hsymbol]
  have hle : r ≤ p := le_of_rivals wf ready h ht' hu' hx rivals hw hstate hsymbol'
    ((priority_of_edge htrim.edge_eq).trans hp) ((priority_of_edge htrim'.edge_eq).trans hq) hr
  exact hw.of_le ht hsymbol.symm happlies hr hp hle

theorem not_conflicting_of_resolvable (resolvable : Resolvable v ts) :
    ¬ State.Conflicting (buryTransitions kept) := by
  rintro ⟨t', ht', u', hu', hconflict⟩
  obtain ⟨t, ht, htrim⟩ := trimmed_of_kept wf h (List.mem_filter.mp ht').1
  obtain ⟨u, hu, htrim'⟩ := trimmed_of_kept wf h (List.mem_filter.mp hu').1
  obtain ⟨_, hsymbol, _, houtcome⟩ := Transition.conflictsWith_iff.mp hconflict
  rw [Transition.symbol_of_edge htrim.edge_eq, Transition.symbol_of_edge htrim'.edge_eq]
    at hsymbol
  rw [Transition.sameOutcome_of_edge htrim.edge_eq htrim'.edge_eq] at houtcome
  -- a bystander would be an accept where a rule can be reduced by
  have carries : ∀ t ∈ ts, ∀ u ∈ ts, t.symbol = u.symbol → t.sameOutcome u = false →
      t.move.carriesLookahead = true := by
    intro t ht u hu hsymbol houtcome
    rw [← Bool.not_eq_false]
    intro hbystander
    obtain ⟨haccept, hreduce⟩ := ready.apart t ht u hu hsymbol houtcome hbystander
    refine resolvable.accept ⟨⟨t, ht, haccept⟩, u, hu, hreduce, ?_⟩
    rw [← hsymbol, ready.accept t ht haccept]
  have hcarries := carries t ht u hu hsymbol houtcome
  have hcarries' := carries u hu t ht hsymbol.symm ((u.sameOutcome_comm t).trans houtcome)
  rw [← Transition.carriesLookahead_of_edge htrim.edge_eq] at hcarries
  rw [← Transition.carriesLookahead_of_edge htrim'.edge_eq] at hcarries'
  obtain ⟨x, hx, rivals⟩ := exists_rivals wf ready h ht' hu' hconflict hcarries hcarries'
  have hkept := (List.mem_filter.mp ht').1
  have hkept' := (List.mem_filter.mp hu').1
  have hforemost := foremost_of_rivals wf ready h hkept hkept' hx rivals ht hu htrim htrim'
  have hforemost' := foremost_of_rivals wf ready h hkept' hkept hx rivals.symm hu ht htrim' htrim
  rw [resolvable.foremost x (wf.mem_inputSymbols.mpr hx) t u hforemost hforemost' hsymbol]
    at houtcome
  cases houtcome

/-- A conflict is left in the end exactly where priorities do not settle all conflicts. -/
theorem not_conflicting_iff :
    ¬ State.Conflicting (compactTransitions (buryTransitions kept)) ↔ Resolvable v ts := by
  rw [conflicting_compact_iff]
  constructor
  · intro hno
    refine ⟨?_, fun x hx t u ht hu hsymbol => ?_⟩
    · rintro ⟨⟨t, ht, haccept⟩, u, hu, hreduce, hsymbol⟩
      exact hno (conflicting_of_accept wf ready h ht hu haccept hreduce hsymbol)
    · rw [← Bool.not_eq_false]
      intro houtcome
      exact hno (conflicting_of_foremost wf ready h (wf.mem_inputSymbols.mp hx) ht hu hsymbol
        houtcome)
  · exact not_conflicting_of_resolvable wf ready h

end Criterion

end Refinement
end ShiftReduce
