/-
When refinement succeeds.

A refined automaton passes the check for conflicts exactly if priorities settle all
conflicts of each state, and if it does not, what is reported is a conflict and nothing
else: `refinement_succeeds_iff`.  All passes answer on the automaton of a grammar, so
there is no third outcome.
-/
import ShiftReduce.Proofs.Refinement.Answers
import ShiftReduce.Proofs.Parser.Soundness

namespace ShiftReduce

theorem exists_mapM_some {α β : Type} {f : α → Option β} {xs : List α}
    (h : ∀ x ∈ xs, ∃ y, f x = some y) : ∃ ys, xs.mapM f = some ys := by
  induction xs with
  | nil => exact ⟨[], List.mapM_nil⟩
  | cons x rest ih =>
    obtain ⟨hx, hrest⟩ := List.forall_mem_cons.mp h
    obtain ⟨y, hy⟩ := hx
    obtain ⟨ys, hys⟩ := ih hrest
    rw [List.mapM_cons]
    exact ⟨y :: ys, Option.bind_eq_some_iff.mpr ⟨y, hy, Option.bind_eq_some_iff.mpr ⟨ys, hys, rfl⟩⟩⟩

namespace State

/-- What is in conflict first are two of the transitions. -/
theorem lt_of_firstConflict {ts : List Transition} {i j : Nat}
    (h : firstConflict ts = some (i, j)) : i < ts.length ∧ j < ts.length := by
  induction ts generalizing i j with
  | nil => cases h
  | cons t rest ih =>
    rw [firstConflict] at h
    split at h
    · rename_i k hk
      cases h
      obtain ⟨hlt, _, _⟩ := List.findIdx?_eq_some_iff_getElem.mp hk
      exact ⟨Nat.zero_lt_succ _, Nat.succ_lt_succ hlt⟩
    · obtain ⟨⟨i', j'⟩, hpair, h⟩ := Option.map_eq_some_iff.mp h
      cases h
      obtain ⟨hi, hj⟩ := ih hpair
      exact ⟨Nat.succ_lt_succ hi, Nat.succ_lt_succ hj⟩

theorem transition_eq_ok {s : State} {i : Nat} (h : i < s.transitions.length) :
    s.transition i = .ok s.transitions[i] := by
  rw [transition, List.getElem?_eq_getElem h]

end State

theorem SymbolSet.OfInput.exists_render {g : Grammar} {s : SymbolSet} (h : s.OfInput g) :
    ∃ text, s.render? g = some text := by
  have named : ∀ x ∈ s.members, ∃ name, g.name? x = some name := fun x hx =>
    ⟨_, Grammar.name?_eq_some_nameOf (Grammar.lt_of_isTerminal (h x hx))⟩
  obtain ⟨names, hnames⟩ := exists_mapM_some named
  exact ⟨_, Option.map_eq_some_iff.mpr ⟨names, hnames, rfl⟩⟩

theorem Lookahead.Simple.exists_render {g : Grammar} {l : Lookahead} (h : l.Simple g) :
    ∃ text, l.render? g = some text := by
  obtain ⟨texts, htexts⟩ := exists_mapM_some fun s hs => (h.2 s hs).exists_render
  exact ⟨_, Option.map_eq_some_iff.mpr ⟨texts, htexts, rfl⟩⟩

namespace Transition

/-- A transition on a symbol of the grammar has a text, if its lookahead is of input
symbols. -/
theorem exists_render {g : Grammar} (wf : g.WellFormed) {a : Automaton} (ha : a.BelongsTo g)
    {t : Transition} (hsymbol : t.symbol.index < g.symbols.length) (hl : t.lookahead.Simple g) :
    ∃ text, t.render g a = .ok text := by
  obtain ⟨text, htext⟩ := hl.exists_render
  have horigin : ∃ origin, t.renderOrigin g a = .ok origin := by
    unfold renderOrigin
    split
    · rename_i item hitem
      exact ⟨_, Checked.render_eq_ok wf (ha.of_item hitem)⟩
    · exact ⟨_, rfl⟩
  refine exists_bind_ok ⟨_, Checked.name_eq_ok hsymbol⟩ fun symbol _ =>
    exists_bind_ok horigin fun origin _ => ?_
  dsimp only
  split
  · exact ⟨_, rfl⟩
  · exact ⟨_, bind_eq_ok.mpr ⟨text, Failure.orForeign_eq_ok.mpr htext, rfl⟩⟩

end Transition

namespace Automaton

variable {g : Grammar} {a : Automaton}

/-- Where all transitions have a text, the check passes or reports a conflict. -/
theorem check_cases (wf : g.WellFormed) (ha : a.BelongsTo g)
    (h : ∀ s ∈ a.states, ∀ t ∈ s.transitions, ∃ text, t.render g a = .ok text) :
    a.check g = .ok () ∨ ∃ report, a.check g = .error (.conflict report) := by
  rw [check]
  split
  · exact Or.inl rfl
  · rename_i s i j hsome
    right
    obtain ⟨s', hs, hpair⟩ := List.exists_of_findSome?_eq_some hsome
    obtain ⟨⟨i', j'⟩, hfirst, e⟩ := Option.map_eq_some_iff.mp hpair
    cases e
    obtain ⟨hi, hj⟩ := State.lt_of_firstConflict hfirst
    obtain ⟨first, hfirst⟩ := h s hs _ (List.getElem_mem hi)
    obtain ⟨second, hsecond⟩ := h s hs _ (List.getElem_mem hj)
    have hreport : a.report g s i j = .ok _ :=
      bind_eq_ok.mpr ⟨_, State.transition_eq_ok hi, bind_eq_ok.mpr ⟨_, State.transition_eq_ok hj,
        bind_eq_ok.mpr ⟨first, hfirst, bind_eq_ok.mpr ⟨second, hsecond,
          bind_eq_ok.mpr ⟨_, Checked.renderItems_eq_ok wf (ha s hs),
            bind_eq_ok.mpr ⟨_, Checked.renderGrammar_eq_ok wf, rfl⟩⟩⟩⟩⟩⟩
    rw [hreport]
    exact ⟨_, rfl⟩

end Automaton

namespace Grammar

/-- Refinement always answers, and the automaton it answers with passes the check exactly if
priorities settle all conflicts that are there when everything has been looked ahead.
Otherwise a conflict is reported. -/
theorem refinement_succeeds_iff {g : Grammar} (built : g.Built) (fits : g.Fits) :
    ∃ (pruned ahead b : Automaton) (looks events : List Event),
      (Automaton.build g).prune (.make g (.build g)) = .ok pruned ∧
        pruned.lookAhead (.make g (.build g)) = .ok (ahead, looks) ∧
          (Automaton.build g).refine g = .ok (b, events) ∧
            (b.check g = .ok () ↔
              ∀ s ∈ ahead.states,
                Refinement.Resolvable (.make g (.build g)) s.transitions) ∧
              (b.check g = .ok () ∨ ∃ report, b.check g = .error (.conflict report)) := by
  have wf := built.wellFormed fits.symbols fits.rules
  have hc := wf.canonical fits.states
  obtain ⟨pruned, ahead, settled, looks, verdicts, events, hpruned, hahead, hsettled, hrefine⟩ :=
    hc.exists_refine_ok wf
  have hprepared := Automaton.reworked_ahead hpruned hahead
  have hsettling := Automaton.reworked_behind hsettled
  have ready : ∀ s ∈ ahead.states, Refinement.Ready (.make g (.build g)) s.transitions := by
    intro s hs
    obtain ⟨n, s₀, hs₀, _, pruned, pairs, hprune, hlook⟩ := hprepared.exists_before hs
    exact hc.ready wf hs₀ hprune hlook
  refine ⟨pruned, ahead, _, looks, events, hpruned, hahead, hrefine, ?_, ?_⟩
  · rw [Automaton.check_eq_ok_iff]
    constructor
    · intro hno s hs
      obtain ⟨s', hs', kept, verdicts, hsettle, e⟩ := hsettling.exists_after hs
      exact (Refinement.not_conflicting_iff wf (ready s hs) hsettle).mp (e ▸ hno s' hs')
    · intro hall s' hs'
      obtain ⟨n, s, hs, _, kept, verdicts, hsettle, e⟩ := hsettling.exists_before hs'
      have hs := List.mem_of_getElem? hs
      rw [e]
      exact (Refinement.not_conflicting_iff wf (ready s hs) hsettle).mpr (hall s hs)
  · have hbelongs := (hprepared.trans hsettling fun _ _ _ _ _ => trivial).belongsTo
      (hc.belongsTo_grammar wf)
    refine Automaton.check_cases wf hbelongs fun s' hs' t' ht' => ?_
    obtain ⟨n, s, hs, _, kept, verdicts, hsettle, e⟩ := hsettling.exists_before hs'
    have hready := ready s (List.mem_of_getElem? hs)
    rw [e] at ht'
    obtain ⟨t, ht, hedge, hsimple⟩ :=
      Refinement.exists_stem_of_settled wf hready hsettle ht'
    refine Transition.exists_render wf hbelongs ?_ hsimple
    rw [Transition.symbol_of_edge hedge]
    exact hready.symbol t ht

/-- Priority settles to which `if` an `else` of `branching` belongs, so the check passes, and
so all conflicts of all states were resolvable. -/
theorem refinement_succeeds_iff_branching : ∃ (g : Grammar) (pruned ahead : Automaton)
    (looks : List Event), ofDefinitions branching = .ok g ∧
      (Automaton.build g).prune (.make g (.build g)) = .ok pruned ∧
        pruned.lookAhead (.make g (.build g)) = .ok (ahead, looks) ∧
          ∀ s ∈ ahead.states, Refinement.Resolvable (.make g (.build g)) s.transitions := by
  obtain ⟨g, hg, h⟩ : ∃ g, ofDefinitions branching = .ok g ∧
      decide (g.Fits ∧ ((Automaton.build g).refine g).toOption.any fun result =>
        result.1.conflict?.isNone) = true := exists_ok_of_any (by decide +kernel)
  obtain ⟨fits, hrefined⟩ := of_decide_eq_true h
  obtain ⟨⟨b, events⟩, hrefine, hnone⟩ := exists_ok_of_any hrefined
  obtain ⟨pruned, ahead, b', looks, events', hpruned, hahead, hrefine', hiff, _⟩ :=
    refinement_succeeds_iff (.ofDefinitions hg) fits
  rw [hrefine] at hrefine'
  cases hrefine'
  refine ⟨g, pruned, ahead, looks, hg, hpruned, hahead, hiff.mp ?_⟩
  have hnone : b.conflict? = none := Option.isNone_iff_eq_none.mp hnone
  rw [Automaton.check, hnone]

end Grammar
end ShiftReduce
