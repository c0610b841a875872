/-
What is reported can be written down.

Of all events only a verdict shows transitions: the one that was favoured, and the one that gave way as
it is then.  Both come from transitions that were ready to be settled, with some of their input taken
away, so their symbols are those of the grammar and their lookaheads hold nothing but input symbols
(`trimmed_of_verdict`).  The items they stem from are in the automaton that was refined.
-/
import ShiftReduce.Generator
import ShiftReduce.Proofs.Refinement.Criterion

namespace ShiftReduce
namespace Refinement

/-- A verdict is about transitions that some of their input was taken away from. -/
theorem trimmed_of_verdict {v : Survey} (wf : v.grammar.WellFormed) {ts kept : List Transition}
    {verdicts : List (Transition × Transition)}
    (h : settleTransitions v ts = .ok (kept, verdicts)) : ∀ verdict ∈ verdicts,
      (∃ t ∈ ts, Trimmed v.grammar t verdict.1) ∧ ∃ t ∈ ts, Trimmed v.grammar t verdict.2 := by
  obtain ⟨m, hm, h⟩ := bind_eq_ok.mp h
  cases h
  let P := fun m : Ledger => After v.grammar ⟨ts, [], []⟩ m ∧ ∀ verdict ∈ m.verdicts,
    (∃ t ∈ ts, Trimmed v.grammar t verdict.1) ∧ ∃ t ∈ ts, Trimmed v.grammar t verdict.2
  have way : ∀ (m m' : Ledger) (low high : Nat), P m → GivesWay v m low high m' → P m' := by
    rintro m m' low high ⟨hafter, hverdicts⟩ hway
    refine ⟨hafter.trans (hway.after wf), ?_⟩
    obtain ⟨lower, higher, _, _, hlow, hhigh, _, _, _, _, rfl⟩ := hway
    intro verdict hverdict
    rcases List.mem_append.mp hverdict with hverdict | hverdict
    · exact hverdicts verdict hverdict
    · rw [List.mem_singleton.mp hverdict]
      obtain ⟨t, ht, htrim⟩ := hafter.trimmed high higher hhigh
      obtain ⟨u, hu, htrim'⟩ := hafter.trimmed low lower hlow
      exact ⟨⟨t, List.mem_of_getElem? ht, htrim⟩,
        u, List.mem_of_getElem? hu, htrim'.trans (trimmed_without wf lower _)⟩
  refine (foldlM_induction P (fun pair _ m m' hP hstep => ?_)
    ⟨.refl _ _, fun _ hverdict => absurd hverdict List.not_mem_nil⟩ hm).2
  rcases settle_eq_ok hstep with rfl | hway | hway
  · exact hP
  · exact way _ _ _ _ hP hway
  · exact way _ _ _ _ hP hway

end Refinement

namespace Automaton

/-- The events of settling are the verdicts on the states. -/
theorem exists_verdict {v : Survey} {a b : Automaton} {events : List Event}
    (h : a.settle v = .ok (b, events)) {event : Event} (hevent : event ∈ events) :
    ∃ s ∈ a.states, ∃ (kept : List Transition) (verdicts : List (Transition × Transition)),
      Refinement.settleTransitions v s.transitions = .ok (kept, verdicts) ∧
        ∃ verdict ∈ verdicts, event = .favoured s.id.index verdict.1 verdict.2 := by
  rw [settle, reworkStates_holding (Refinement.settle_eq v)] at h
  obtain ⟨⟨_, notes⟩, htraverse, h⟩ := bind_eq_ok.mp h
  cases h
  obtain ⟨results, hresults, htraverse⟩ := bind_eq_ok.mp htraverse
  cases htraverse
  obtain ⟨⟨s', verdicts⟩, hnote, hverdict⟩ := List.mem_flatMap.mp hevent
  obtain ⟨⟨high, low⟩, hmem, rfl⟩ := List.mem_map.mp hverdict
  obtain ⟨s, hs, hstep⟩ := exists_mem_of_forall₂ (mapM_eq_ok.mp hresults).flip hnote
  obtain ⟨⟨kept, _⟩, hsettle, hstep⟩ := bind_eq_ok.mp hstep
  cases hstep
  exact ⟨s, hs, kept, verdicts, hsettle, (high, low), hmem, rfl⟩

namespace Canonical

variable {g : Grammar} {a b : Automaton} (hc : Canonical g a) (wf : g.WellFormed)

include hc wf

/-- The transitions of a verdict have a text: what was taken away from them changed no symbol. -/
theorem exists_render_favoured {pruned ahead settled : Automaton} {looks verdicts : List Event}
    (hpruned : a.prune (.make g a) = .ok pruned)
    (hahead : pruned.lookAhead (.make g a) = .ok (ahead, looks))
    (hsettled : ahead.settle (.make g a) = .ok (settled, verdicts)) {event : Event}
    (hevent : event ∈ verdicts) : ∃ text, event.render g a = .ok text := by
  obtain ⟨s, hs, kept, _, hsettle, verdict, hverdict, rfl⟩ := exists_verdict hsettled hevent
  obtain ⟨n, s₀, hs₀, _, ts, pairs, hprune, hlook⟩ :=
    (reworked_ahead hpruned hahead).exists_before hs
  have ready := hc.ready wf hs₀ hprune hlook
  have written : ∀ t', (∃ t ∈ s.transitions, Refinement.Trimmed g t t') →
      ∃ text, t'.render g a = .ok text := by
    rintro t' ⟨t, ht, htrim⟩
    refine Transition.exists_render wf (hc.belongsTo_grammar wf) ?_ (htrim.simple (ready.simple t ht))
    rw [Transition.symbol_of_edge htrim.edge_eq]
    exact ready.symbol t ht
  obtain ⟨hhigh, hlow⟩ := Refinement.trimmed_of_verdict (v := .make g a) wf hsettle verdict hverdict
  exact exists_bind_ok (written _ hhigh) fun high _ =>
    exists_bind_ok (written _ hlow) fun low _ => ⟨_, rfl⟩

/-- Whatever a refinement of the canonical collection reports has a text. -/
theorem exists_render_event {events : List Event} (h : a.refine g = .ok (b, events)) :
    ∀ event ∈ events, ∃ text, event.render g a = .ok text := by
  obtain ⟨v, hv, h⟩ := bind_eq_ok.mp h
  cases (Checked.survey_eq_ok wf a).symm.trans hv
  obtain ⟨followed, hfollowed, h⟩ := bind_eq_ok.mp h
  obtain ⟨pruned, hpruned, h⟩ := bind_eq_ok.mp h
  obtain ⟨⟨ahead, looks⟩, hahead, h⟩ := bind_eq_ok.mp h
  obtain ⟨⟨settled, verdicts⟩, hsettled, h⟩ := bind_eq_ok.mp h
  obtain ⟨_, _, h⟩ := bind_eq_ok.mp h
  obtain ⟨_, _, h⟩ := bind_eq_ok.mp h
  cases h
  intro event hevent
  simp only [List.mem_append, List.mem_singleton] at hevent
  rcases hevent with ((hevent | rfl) | hevent) | hevent
  · obtain ⟨followers, _, hfollowed⟩ := bind_eq_ok.mp hfollowed
    cases hfollowed
    split at hevent
    · rw [List.mem_singleton.mp hevent]
      exact ⟨_, rfl⟩
    · exact absurd hevent List.not_mem_nil
  · exact ⟨_, rfl⟩
  · obtain ⟨⟨_, notes⟩, _, hlooks⟩ := bind_eq_ok.mp hahead
    cases hlooks
    obtain ⟨⟨s, pairs⟩, _, hpair⟩ := List.mem_flatMap.mp hevent
    obtain ⟨⟨r, shift⟩, _, rfl⟩ := List.mem_map.mp hpair
    exact ⟨_, rfl⟩
  · exact hc.exists_render_favoured wf hpruned hahead hsettled hevent

end Canonical
end Automaton

/-- The log of a generator is written down. -/
theorem Grammar.WellFormed.exists_log {g : Grammar} (wf : g.WellFormed)
    (hsize : (Automaton.build g).size < handleSpan) (method : Method) :
    ∃ lines, g.log method = .ok lines := by
  have hc := wf.canonical hsize
  have hbuild : ∀ event ∈ (Automaton.build g).buildEvents,
      ∃ text, event.render g (.build g) = .ok text := by
    intro event hevent
    rcases List.mem_append.mp hevent with hevent | hevent
    · obtain ⟨s, _, rfl⟩ := List.mem_map.mp hevent
      exact ⟨_, rfl⟩
    · rw [List.mem_singleton.mp hevent]
      exact ⟨_, rfl⟩
  refine exists_mapM_ok fun event hevent => ?_
  have htext : ∃ text, event.render g (.build g) = .ok text := by
    unfold Grammar.events at hevent
    cases method with
    | plain => exact hbuild event hevent
    | refined =>
      dsimp only at hevent
      split at hevent
      · rename_i b events hrefine
        rcases List.mem_append.mp hevent with hevent | hevent
        · exact hbuild event hevent
        · exact hc.exists_render_event wf hrefine event hevent
      · exact hbuild event hevent
  exact exists_bind_ok htext fun text _ => ⟨_, rfl⟩

end ShiftReduce
