/-
What the check for conflicts finds.

The check looks at each earlier and later transition of a state.  Conflict is mutual and
no transition is in conflict with itself, so it passes exactly if no two transitions of a
state are in conflict, in whatever order they stand: `check_eq_ok_iff`.
-/
import ShiftReduce.Automaton.Conflict
import ShiftReduce.Proofs.Outcome

namespace ShiftReduce

theorem Transition.conflictsWith_iff {t u : Transition} : t.conflictsWith u = true ↔
    t.origin.state = u.origin.state ∧ t.symbol = u.symbol ∧
      t.lookahead.disjoint u.lookahead = false ∧ t.sameOutcome u = false := by
  simp only [conflictsWith, Bool.and_eq_true, beq_iff_eq, Bool.not_eq_true', and_assoc]

namespace State

/-- Two of the transitions are in conflict. -/
def Conflicting (ts : List Transition) : Prop :=
  ∃ t ∈ ts, ∃ u ∈ ts, t.conflictsWith u = true

theorem conflict?_eq_none_iff {s : State} :
    s.conflict? = none ↔ ¬ Conflicting s.transitions := by
  rw [conflict?, firstConflict_eq_none_iff]
  constructor
  · rintro hpairwise ⟨t, ht, u, hu, hconflict⟩
    have hself : ∀ t ∈ s.transitions, t.conflictsWith t = false := fun t _ => by
      rw [Transition.conflictsWith, Transition.sameOutcome_refl, Bool.not_true, Bool.and_false]
    have hflip := hpairwise.imp fun {t u} h => (Transition.conflictsWith_comm u t).trans h
    rw [List.Pairwise.forall_of_forall_of_flip hself hpairwise hflip ht hu] at hconflict
    cases hconflict
  · intro hno
    refine List.pairwise_of_forall_mem_list fun t ht u hu => ?_
    rw [← Bool.not_eq_true]
    exact fun hconflict => hno ⟨t, ht, u, hu, hconflict⟩

end State

namespace Automaton

variable {g : Grammar} {a : Automaton}

theorem check_eq_ok_iff :
    a.check g = .ok () ↔ ∀ s ∈ a.states, ¬ State.Conflicting s.transitions := by
  have hnone : a.conflict? = none ↔ ∀ s ∈ a.states, ¬ State.Conflicting s.transitions := by
    rw [conflict?, List.findSome?_eq_none_iff]
    refine forall₂_congr fun s _ => ?_
    rw [Option.map_eq_none_iff]
    exact State.conflict?_eq_none_iff
  rw [← hnone, check]
  split
  · rename_i hn
    rw [hn]
    exact ⟨fun _ => rfl, fun _ => rfl⟩
  · rename_i s i j hsome
    rw [hsome]
    constructor
    · intro h
      obtain ⟨_, _, h⟩ := bind_eq_ok.mp h
      cases h
    · intro h
      cases h

/-- What passed the check has no two transitions in conflict in any state. -/
theorem conflictsWith_eq_false_of_check (h : a.check g = .ok ()) {s : State} (hs : s ∈ a.states)
    {t u : Transition} (ht : t ∈ s.transitions) (hu : u ∈ s.transitions) :
    t.conflictsWith u = false := by
  rw [← Bool.not_eq_true]
  exact fun hconflict => check_eq_ok_iff.mp h s hs ⟨t, ht, u, hu, hconflict⟩

end Automaton
end ShiftReduce
