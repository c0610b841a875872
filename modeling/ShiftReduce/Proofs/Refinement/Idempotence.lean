/-
Refining twice.

`Finished` says of the transitions of a state that no pass finds anything to do about them:
every reduction is on a symbol that can follow, no two transitions are in conflict, nothing
is dead, and a lookahead is left only where it decides something.  Refinement leaves an
automaton of such states as it is (`refine_of_finished`), and what refinement and the check
behind it let through is such an automaton (`finished_of_refined`).  So to do both again
changes nothing: `deconflict_idempotent`.

The second run asks about an automaton with other transitions than the first.  That makes no
difference, since all questions are about items.  That no two transitions are in conflict is
what keeps the second run from computing lookaheads anew, which would bring back the input
that a transition has given up.
-/
import ShiftReduce.Proofs.Refinement.Frame
import ShiftReduce.Proofs.Refinement.OnDemand

namespace ShiftReduce
namespace Refinement

variable {v : Survey}

/-- No pass finds anything to do about these transitions. -/
structure Finished (v : Survey) (ts : List Transition) : Prop where
  live : ∀ t ∈ ts, isLive v t = .ok true
  apart : ¬ State.Conflicting ts
  alive : ∀ t ∈ ts, t.lookahead.isDead = false
  /-- A lookahead that decides nothing was taken away. -/
  compact : ∀ t ∈ ts, isSettled ts t = true → t.lookahead = .any

theorem prune_of_live {ts : List Transition} (h : ∀ t ∈ ts, isLive v t = .ok true) :
    pruneTransitions v ts = .ok ts := by
  have hall : ts.filter (fun _ => true) = ts := List.filter_eq_self.mpr fun _ _ => rfl
  exact (retain_eq_filter h).trans (congrArg Except.ok hall)

/-! ## What a refinement ends with -/

theorem edge_edge (t : Transition) : t.edge.edge = t.edge := t.edge_withLookahead .any

/-- Whether a lookahead decides something does not depend on any lookahead. -/
theorem isSettled_of_edge {ts ts' : List Transition} {t t' : Transition}
    (hts : ts'.map Transition.edge = ts.map Transition.edge) (ht : t'.edge = t.edge) :
    isSettled ts' t' = isSettled ts t := by
  have bare : ∀ (us : List Transition) (u : Transition),
      isSettled us u = isSettled (us.map Transition.edge) u.edge := by
    intro us u
    rw [isSettled, isSettled, List.all_map]
    congr 1
    funext w
    rw [Function.comp_apply, Transition.sameOutcome_of_edge (edge_edge w) (edge_edge u)]
    rfl
  rw [bare ts' t', bare ts t, hts, ht]

theorem lookahead_of_compacted {ts : List Transition} {t : Transition}
    (ht : t ∈ compactTransitions ts) (h : isSettled (compactTransitions ts) t = true) :
    t.lookahead = .any := by
  obtain ⟨u, _, rfl⟩ := List.mem_map.mp ht
  rw [isSettled_of_edge (map_edge_compact ts) (edge_compacted ts u)] at h
  rw [if_pos h]
  exact (u.lookahead_withLookahead .any).elim id id

/-- Unless a conflict is left, nothing is left to do. -/
theorem finished_of_refined {ts ts' : List Transition} (h : Refined v ts ts')
    (hno : ¬ State.Conflicting ts') : Finished v ts' := by
  have halive : ∀ t ∈ ts', t.lookahead.isDead = false := fun t ht => isDead_eq_false_of_refined h ht
  obtain ⟨pruned, ahead, settled, pairs, verdicts, hpruned, hahead, hsettled, rfl⟩ := h
  refine
    { live := fun t ht => ?_
      apart := hno
      alive := halive
      compact := fun t ht hsettled => lookahead_of_compacted ht hsettled }
  -- what is left was not pruned, and no later pass changes what pruning looks at
  have hedge := (sublist_of_pruned hahead hsettled).subset (List.mem_map_of_mem ht)
  obtain ⟨t₀, ht₀, he⟩ := List.mem_map.mp hedge
  rw [← isLive_of_edge he]
  exact ((mem_of_retain hpruned).mp ht₀).2

end Refinement

namespace Automaton

variable {g : Grammar} {a b : Automaton}

theorem automaton_of_survey {v : Survey} (h : Checked.survey g a = .ok v) : v.automaton = a := by
  obtain ⟨follow, _, h⟩ := bind_eq_ok.mp h
  cases h
  rfl

theorem isLive_of_bare {v : Survey} (h : b.bare = v.automaton.bare) (t : Transition) :
    Refinement.isLive { v with automaton := b } t = Refinement.isLive v t := by
  rw [Refinement.isLive, Refinement.isLive, Survey.firstSet_of_bare h]

/-- Refinement leaves an automaton as it is where no pass finds anything to do. -/
theorem refine_of_finished {v : Survey} (hv : Checked.survey g a = .ok v)
    (h : ∀ s ∈ a.states, Refinement.Finished v s.transitions) :
    ∃ events, a.refine g = .ok (a, events) := by
  have hpruned : a.prune v = .ok a := by
    have hfixed : ∀ s ∈ a.states,
        (do return (← Refinement.pruneTransitions v s.transitions, ())) =
          Except.ok (s.transitions, ()) := fun s hs =>
      bind_eq_ok.mpr ⟨_, Refinement.prune_of_live (h s hs).live, rfl⟩
    rw [prune, rework_holding (Refinement.prune_eq v)]
    exact map_eq_ok.mpr ⟨_, traverse_of_fixed hfixed, rfl⟩
  have hno : ∀ s ∈ a.states, ¬ State.Conflicting s.transitions := fun s hs => (h s hs).apart
  obtain ⟨looks, hahead⟩ := lookAhead_of_not_conflicting (v := v) hno
  have hcompact : a.mapTransitions Refinement.compactTransitions = a :=
    mapTransitions_of_fixed fun s hs => Refinement.compact_of_settled (h s hs).compact
  have hrefine := refine_of_not_conflicting hv hpruned hahead hno fun s hs => (h s hs).alive
  rw [hcompact] at hrefine
  exact hrefine

/-- What a refinement makes of an automaton is finished, if it passes the check. -/
theorem finished_of_refine {events : List Event} (h : a.refine g = .ok (b, events))
    (hcheck : b.check g = .ok ()) : ∃ v, Checked.survey g b = .ok v ∧
      ∀ s ∈ b.states, Refinement.Finished v s.transitions := by
  obtain ⟨v, hv, hreworked⟩ := refine_eq_ok h
  have hbare : b.bare = v.automaton.bare := by
    rw [hreworked.bare_eq, automaton_of_survey hv]
  refine ⟨_, Survey.survey_of_bare hreworked.bare_eq hv, fun s' hs' => ?_⟩
  obtain ⟨_, _, _, _, hrefined⟩ := hreworked.exists_before hs'
  have hfinished := Refinement.finished_of_refined hrefined (check_eq_ok_iff.mp hcheck s' hs')
  exact { hfinished with
    live := fun t ht => (isLive_of_bare hbare t).trans (hfinished.live t ht) }

/-- Refinement and the check behind it: what lies between building an automaton and making
its tables. -/
def deconflict (g : Grammar) (a : Automaton) : Except Failure Automaton := do
  let (b, _) ← a.refine g
  b.check g
  return b

theorem deconflict_eq_ok : a.deconflict g = .ok b ↔
    (∃ events, a.refine g = .ok (b, events)) ∧ b.check g = .ok () := by
  constructor
  · intro h
    obtain ⟨⟨c, events⟩, hrefine, h⟩ := bind_eq_ok.mp h
    obtain ⟨_, hcheck, h⟩ := bind_eq_ok.mp h
    cases h
    exact ⟨⟨events, hrefine⟩, hcheck⟩
  · rintro ⟨⟨events, hrefine⟩, hcheck⟩
    exact bind_eq_ok.mpr ⟨_, hrefine, bind_eq_ok.mpr ⟨(), hcheck, rfl⟩⟩

/-- What both let through they let through again, whatever automaton it was made of. -/
theorem deconflict_again (h : a.deconflict g = .ok b) : b.deconflict g = .ok b := by
  obtain ⟨⟨events, hrefine⟩, hcheck⟩ := deconflict_eq_ok.mp h
  obtain ⟨v, hv, hfinished⟩ := finished_of_refine hrefine hcheck
  exact deconflict_eq_ok.mpr ⟨refine_of_finished hv hfinished, hcheck⟩

theorem refinedTables_eq (g : Grammar) :
    g.tables .refined = (Automaton.build g).deconflict g >>= fun a => a.tables g := by
  rw [Grammar.tables, Grammar.refinedTables, deconflict, bind_assoc]
  refine bind_congr fun result => ?_
  rw [bind_assoc]
  rfl

/-- Once the automaton of a grammar is refined and has passed the check, to refine and check it
again changes no state, no transition and no lookahead, and makes the same tables. -/
theorem deconflict_idempotent (h : (Automaton.build g).deconflict g = .ok b) :
    b.deconflict g = .ok b ∧ (b.deconflict g >>= fun c => c.tables g) = g.tables .refined := by
  have hagain := deconflict_again h
  refine ⟨hagain, ?_⟩
  rw [refinedTables_eq, hagain, h]

/-- In `branching` the first run does something: the reduction on `else` gives way to the shift.
The second does nothing. -/
theorem deconflict_idempotent_branching : ∃ (g : Grammar) (b : Automaton),
    Grammar.ofDefinitions Grammar.branching = .ok g ∧ (Automaton.build g).deconflict g = .ok b ∧
      b ≠ .build g ∧ b.deconflict g = .ok b ∧
        (b.deconflict g >>= fun c => c.tables g) = g.tables .refined := by
  obtain ⟨g, hg, h⟩ : ∃ g, Grammar.ofDefinitions Grammar.branching = .ok g ∧
      ((Automaton.build g).deconflict g).toOption.any (fun b => decide (b ≠ .build g)) = true :=
    exists_ok_of_any (by decide +kernel)
  obtain ⟨b, hb, hne⟩ := exists_ok_of_any h
  obtain ⟨hagain, htables⟩ := deconflict_idempotent hb
  exact ⟨g, b, hg, hb, of_decide_eq_true hne, hagain, htables⟩

end Automaton
end ShiftReduce
