/-
First and follow sets of the items of an automaton.

What can come at the dot of an item is what the rest of its rule begins with, and what
follows its left side if the rest can vanish; behind rule 0 the input ends.  `Expects`
says that by derivations, and for the automaton of a grammar it is what the first set of
the item holds.
-/
import ShiftReduce.Proofs.Automaton.FollowSets
import ShiftReduce.Proofs.Automaton.Questions

namespace ShiftReduce

/-- The input symbol can come at the dot of the item. -/
def Item.Expects (g : Grammar) (item : Item) (t : SymbolId) : Prop :=
  g.Begins (item.rest g) t ∨ g.Derives (item.rest g) [] ∧
    (if item.left g = .accept then t = .endMarker else g.FollowedBy (item.left g) t)

namespace Automaton.Canonical

variable {g : Grammar} {a : Automaton} (hc : Canonical g a) (wf : g.WellFormed)

include hc wf

theorem mem_firstWith_iff_expects (item : Item) (hitem : item.rule.index < g.rules.length)
    {t : SymbolId} : t ∈ item.firstWith g (a.followTable g) ↔ item.Expects g t := by
  have hfollow := hc.mem_followTable_iff wf (t := t) (wf.isNonterminal_leftOf hitem)
  have hfirst : t ∈ g.sequenceFirst (item.rest g) ↔ g.Begins (item.rest g) t :=
    wf.mem_sequenceFirst_iff
  have hnullable : g.Derives (item.rest g) [] ↔ g.sequenceNullable (item.rest g) = true :=
    wf.derives_nil_iff
  show t ∈ (if g.sequenceNullable (item.rest g) = true then _ else _) ↔ _
  unfold Item.Expects
  by_cases hvanish : g.sequenceNullable (item.rest g) = true
  · rw [if_pos hvanish]
    have hnil := hnullable.mpr hvanish
    by_cases haccept : item.left g = .accept
    · rw [if_pos haccept, if_pos haccept, SymbolSet.mem_insert, hfirst, or_comm]
      exact or_congr_right (and_iff_right hnil).symm
    · rw [if_neg haccept, if_neg haccept, SymbolSet.mem_union, hfirst]
      exact or_congr_right (hfollow.trans (and_iff_right hnil).symm)
  · rw [if_neg hvanish, hfirst]
    have hnil : ¬ g.Derives (item.rest g) [] := fun h => hvanish (hnullable.mp h)
    exact (or_iff_left fun h => hnil h.1).symm

/-- Nothing is in the follow set of a nonterminal that no sentential form has. -/
theorem followTable_eq_empty {x : SymbolId} (hx : g.isNonterminal x = true)
    (h : ∀ (start : SymbolId) (front back : List SymbolId), g.start? = some start →
      ¬ g.Derives [start] (front ++ x :: back)) : setAt (a.followTable g) x = ∅ := by
  refine SymbolSet.ext fun t => ⟨fun ht => ?_, fun ht => absurd ht (SymbolSet.not_mem_empty t)⟩
  obtain ⟨_, behind, hstands⟩ := Grammar.followedBy_iff.mp ((hc.mem_followTable_iff wf hx).mp ht)
  obtain ⟨start, front, back, hstart, hderives, _⟩ := hstands.exists_derives wf hx
  exact absurd hderives (h start front back hstart)

end Automaton.Canonical

namespace Grammar.WellFormed

variable {g : Grammar} (wf : g.WellFormed)

include wf

/-- The accepting nonterminal is in no sentential form. -/
theorem not_derives_accept {start : SymbolId} (h : g.start? = some start)
    (front back : List SymbolId) : ¬ g.Derives [start] (front ++ .accept :: back) := by
  suffices hno : ∀ ys, g.Derives [start] ys → SymbolId.accept ∉ ys from fun hderives =>
    hno _ hderives (List.mem_append_right front List.mem_cons_self)
  intro ys hderives
  induction hderives with
  | refl =>
    obtain ⟨start', hstart', hzero, _⟩ := wf.exists_start
    rw [h] at hstart'
    cases hstart'
    have hrule : g.rule? (Handle.ofNat 0) = some (Builder.acceptRule start) := hzero
    have hmem : start ∈ g.rightOf (Handle.ofNat 0) := by
      rw [rightOf_of_rule? hrule]
      exact List.mem_singleton_self start
    intro haccept
    exact (wf.mem_rightOf hmem).2.2 (List.mem_singleton.mp haccept).symm
  | tail _ hstep ih =>
    cases hstep with
    | @replace r front back hr =>
      intro hmem
      rcases List.mem_append.mp hmem with hmem | hmem
      · rcases List.mem_append.mp hmem with hmem | hmem
        · exact ih (List.mem_append_left _ hmem)
        · exact (wf.mem_rightOf hmem).2.2 rfl
      · exact ih (List.mem_append_right _ (List.mem_cons_of_mem _ hmem))

end Grammar.WellFormed

namespace Session

/-- Asked about the automaton of a grammar, a session tells the follow set of a nonterminal
as sentential forms have it, so that it is empty for the accepting one and for all that no
sentential form has; and for every item at a site what can come at its dot. -/
theorem sets_of_build {g : Grammar} (built : g.Built) (fits : g.Fits) :
    (∀ x, g.isNonterminal x = true →
      ∀ t, t ∈ ((start (.build g)).followOf g x).1 ↔ g.FollowedBy x t) ∧
    ((start (.build g)).followOf g .accept).1 = ∅ ∧
    (∀ x, g.isNonterminal x = true →
      (∀ (s : SymbolId) (front back : List SymbolId), g.start? = some s →
        ¬ g.Derives [s] (front ++ x :: back)) → ((start (.build g)).followOf g x).1 = ∅) ∧
    ∀ (site : Site) (item : Item), (Automaton.build g).item site = .ok item →
      ∃ set, ((start (.build g)).firstSet g site).1 = .ok set ∧
        ∀ t, t ∈ set ↔ g.Begins (item.rest g) t ∨ g.Derives (item.rest g) [] ∧
          (if item.left g = .accept then t = .endMarker else g.FollowedBy (item.left g) t) := by
  have wf := built.wellFormed fits.symbols fits.rules
  have hc := wf.canonical fits.states
  refine ⟨fun x hx t => hc.mem_followTable_iff wf hx, ?_, fun x hx => ?_, fun site item hitem => ?_⟩
  · exact hc.followTable_eq_empty wf wf.isNonterminal_accept fun _ front back hstart =>
      wf.not_derives_accept hstart front back
  · exact hc.followTable_eq_empty wf hx
  · refine ⟨item.firstWith g ((Automaton.build g).followTable g), ?_, fun t => ?_⟩
    · simp only [firstSet, start, List.lookup_nil, hitem, table]
    · obtain ⟨s, hs, hposition⟩ := Automaton.item_eq_ok.mp hitem
      have hbelongs := hc.belongsTo wf hs item (List.mem_of_getElem? hposition)
      exact hc.mem_firstWith_iff_expects wf item hbelongs.1

/-- In `itemList` an `x` can follow a list, and the end of the input can come where the
list is still to come. -/
theorem sets_of_build_itemList : ∃ (g : Grammar) (set : SymbolSet),
    Grammar.ofDefinitions Grammar.itemList = .ok g ∧
      g.FollowedBy (Handle.ofNat 2) (Handle.ofNat 4) ∧
      ((start (.build g)).followOf g .accept).1 = ∅ ∧
      ((start (.build g)).firstSet g ⟨Handle.ofNat 0, 0⟩).1 = .ok set ∧
      (.endMarker ∈ set ↔ g.Begins [Handle.ofNat 2] .endMarker ∨ g.Derives [Handle.ofNat 2] []) := by
  obtain ⟨g, hg, h⟩ : ∃ g, Grammar.ofDefinitions Grammar.itemList = .ok g ∧
      decide (g.Fits ∧ g.isNonterminal (Handle.ofNat 2) = true ∧
        Handle.ofNat 4 ∈ ((start (.build g)).followOf g (Handle.ofNat 2)).1 ∧
        (((Automaton.build g).item ⟨Handle.ofNat 0, 0⟩).toOption.any fun item =>
          item.rest g == [Handle.ofNat 2] && item.left g == .accept) = true) = true :=
    exists_ok_of_any (by decide +kernel)
  obtain ⟨fits, hlist, hfollow, hsite⟩ := of_decide_eq_true h
  obtain ⟨item, hitem, hrest⟩ := exists_ok_of_any hsite
  obtain ⟨hrest, hleft⟩ := Bool.and_eq_true_iff.mp hrest
  obtain ⟨hfollowOf, haccept, _, hfirst⟩ := sets_of_build (.ofDefinitions hg) fits
  obtain ⟨set, hset, hmem⟩ := hfirst _ item hitem
  refine ⟨g, set, hg, (hfollowOf _ hlist _).mp hfollow, haccept, hset, (hmem _).trans ?_⟩
  rw [beq_iff_eq.mp hrest, if_pos (beq_iff_eq.mp hleft)]
  exact or_congr_right (and_iff_left rfl)

end Session
end ShiftReduce
