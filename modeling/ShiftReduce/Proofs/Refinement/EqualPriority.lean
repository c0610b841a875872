/-
Refinement without priorities.

If all user rules have one priority, nothing is settled by it.  Then a pass drops
a transition only where its symbol cannot come, and puts no lookahead in place but
the one called for, so whatever a sentence needs is still there: `refine_serves`.
-/
import ShiftReduce.Proofs.Automaton.Population
import ShiftReduce.Proofs.Automaton.Lookahead
import ShiftReduce.Proofs.Refinement.Passes

namespace ShiftReduce

namespace Refinement

variable {v : Survey}

/-- A transition is left as it is, or looked into. -/
def Touched (v : Survey) (t t' : Transition) : Prop := t' = t ∨ v.lookInto t = .ok t'

theorem Touched.edge_eq {t t' : Transition} (h : Touched v t t') : t'.edge = t.edge :=
  h.elim (fun e => e ▸ rfl) Survey.edge_of_lookInto

/-- Looking into a transition again finds what looking into it found before. -/
theorem Touched.again {t u t' : Transition} (h : Touched v t u) (h' : v.lookInto u = .ok t') :
    v.lookInto t = .ok t' := by
  rcases h with rfl | h
  · exact h'
  · exact Survey.lookInto_again h h'

theorem Touched.lookInto {t u t' : Transition} (h : Touched v t u) (h' : v.lookInto u = .ok t') :
    Touched v t t' := Or.inr (h.again h')

/-- Looking into a transition never leaves it without any input to admit. -/
theorem Touched.isDead_eq_false {t t' : Transition} (h : Touched v t t')
    (hany : t.lookahead = .any) : t'.lookahead.isDead = false := by
  have halive : t.lookahead.isDead = false := by
    rw [hany]
    rfl
  rcases h with rfl | hlook
  · exact halive
  · rcases Survey.lookInto_eq_ok hlook with rfl | ⟨l, rfl, _, hl⟩
    · exact halive
    · rcases t.lookahead_withLookahead l with e | e
      · rw [e]
        exact hl
      · rw [e]
        rfl

/-- The two lists have the same transitions at the same places, but for having been
looked into. -/
def TouchedAll (v : Survey) (ts ts' : List Transition) : Prop := List.Forall₂ (Touched v) ts ts'

theorem TouchedAll.refl (v : Survey) (ts : List Transition) : TouchedAll v ts ts :=
  List.forall₂_same.mpr fun _ _ => Or.inl rfl

theorem TouchedAll.touched {ts now : List Transition} (h : TouchedAll v ts now) {i : Nat}
    {t u : Transition} (ht : ts[i]? = some t) (hu : now[i]? = some u) : Touched v t u := by
  obtain ⟨hi, rfl⟩ := List.getElem?_eq_some_iff.mp ht
  obtain ⟨hi', rfl⟩ := List.getElem?_eq_some_iff.mp hu
  exact List.Forall₂.get h hi hi'

theorem TouchedAll.exists_of_mem {ts now : List Transition} (h : TouchedAll v ts now)
    {u : Transition} (hu : u ∈ now) : ∃ t ∈ ts, Touched v t u :=
  exists_mem_of_forall₂ (List.Forall₂.flip h) hu

theorem TouchedAll.set {ts now : List Transition} (h : TouchedAll v ts now) {i : Nat}
    {t' : Transition} (ht' : ∀ t, ts[i]? = some t → Touched v t t') :
    TouchedAll v ts (now.set i t') :=
  forall₂_set_right h ht'

theorem touchedAll_lookAhead {ts ts' : List Transition} {pairs : List (Nat × Nat)}
    (h : lookAheadTransitions v ts = .ok (ts', pairs)) : TouchedAll v ts ts' := by
  refine foldlM_induction (fun m : List Transition × List (Nat × Nat) => TouchedAll v ts m.1)
    (fun pair _ m m' hm hstep => ?_) (TouchedAll.refl v ts) h
  obtain ⟨⟨next, changed⟩, hpair, hstep⟩ := bind_eq_ok.mp hstep
  cases hstep
  rcases lookAheadBoth_eq_ok hpair with rfl | ⟨t, u, t', u', ht, hu, ht', hu', rfl⟩
  · exact hm
  · have hset : TouchedAll v ts (m.1.set pair.2 u') :=
      hm.set fun t₀ h₀ => (hm.touched h₀ hu).lookInto hu'
    exact hset.set fun t₀ h₀ => (hm.touched h₀ ht).lookInto ht'

/-! ## Nothing to settle -/

/-- Nothing yields to what has the same priority. -/
theorem not_givesWay_of_equal {m m' : Ledger} {low high : Nat} {p : Int}
    (hlow : ∀ t, m.transitions[low]? = some t → v.priority t = .ok p)
    (hhigh : ∀ t, m.transitions[high]? = some t → v.priority t = .ok p) :
    ¬ GivesWay v m low high m' := by
  rintro ⟨lower, higher, q, q', hlower, hhigher, _, hq, hq', hlt, _⟩
  rw [hlow lower hlower] at hq
  rw [hhigh higher hhigher] at hq'
  cases hq
  cases hq'
  exact absurd hlt (Int.lt_irrefl p)

theorem settlePair_eq_of_equal {m m' : Ledger} {i j : Nat} {p : Int}
    (hi : ∀ t, m.transitions[i]? = some t → v.priority t = .ok p)
    (hj : ∀ t, m.transitions[j]? = some t → v.priority t = .ok p)
    (h : m.settle v i j = .ok m') : m' = m := by
  rcases settle_eq_ok h with e | hway | hway
  · exact e
  · exact absurd hway (not_givesWay_of_equal hi hj)
  · exact absurd hway (not_givesWay_of_equal hj hi)

theorem settle_eq_of_equal {ts ts' : List Transition} {verdicts : List (Transition × Transition)}
    {p : Int}
    (hequal : ∀ t ∈ ts, t.kind = .shift ∨ t.kind = .reduce → v.priority t = .ok p)
    (h : settleTransitions v ts = .ok (ts', verdicts)) : ts' = ts := by
  obtain ⟨m, hm, h⟩ := bind_eq_ok.mp h
  cases h
  have hpositions : ∀ i ∈ positionsOf .reduce ts ++ positionsOf .shift ts, ∀ t,
      ts[i]? = some t → v.priority t = .ok p := by
    intro i hi t ht
    refine hequal t (List.mem_of_getElem? ht) ?_
    rcases List.mem_append.mp hi with hi | hi
    · obtain ⟨u, hu, hkind⟩ := mem_positionsOf.mp hi
      rw [ht] at hu
      cases hu
      exact Or.inr hkind
    · obtain ⟨u, hu, hkind⟩ := mem_positionsOf.mp hi
      rw [ht] at hu
      cases hu
      exact Or.inl hkind
  have hsame : m = ⟨ts, [], []⟩ := by
    refine foldlM_induction (fun m => m = ⟨ts, [], []⟩) (fun pair hpair b c hb hc => ?_) rfl hm
    subst hb
    obtain ⟨hi, hj⟩ := mem_of_mem_orderedPairs hpair
    exact settlePair_eq_of_equal (hpositions _ hi) (hpositions _ hj) hc
  rw [hsame]
  have hkept : (ts.zipIdx.filter fun entry => !([] : List Nat).contains entry.2) = ts.zipIdx :=
    List.filter_eq_self.mpr fun _ _ => rfl
  exact (congrArg (List.map Prod.fst) hkept).trans (List.zipIdx_map_fst 0 ts)

/-- What is live is kept, with no lookahead or the one it calls for. -/
theorem exists_of_refined {ts ts' : List Transition} {p : Int} (h : Refined v ts ts')
    (hany : ∀ t ∈ ts, t.lookahead = .any)
    (hequal : ∀ t ∈ ts, t.kind = .shift ∨ t.kind = .reduce → v.priority t = .ok p)
    {t : Transition} (ht : t ∈ ts) (hlive : isLive v t = .ok true) :
    ∃ t' ∈ ts', t'.edge = t.edge ∧ (t'.lookahead = .any ∨ v.lookInto t = .ok t') := by
  obtain ⟨pruned, ahead, settled, pairs, verdicts, hpruned, hahead, hsettled, rfl⟩ := h
  have htouched := touchedAll_lookAhead hahead
  have hsame : settled = ahead := by
    refine settle_eq_of_equal (p := p) (fun u hu hkind => ?_) hsettled
    obtain ⟨t, ht, htu⟩ := htouched.exists_of_mem hu
    have hedge := htu.edge_eq
    rw [← u.kind_edge, hedge, t.kind_edge] at hkind
    rw [Survey.priority, Transition.origin_of_edge hedge]
    exact hequal t ((mem_of_retain hpruned).mp ht).1 hkind
  subst hsame
  obtain ⟨i, hi, rfl⟩ := List.mem_iff_getElem.mp ((mem_of_retain hpruned).mpr ⟨ht, hlive⟩)
  have hi' : i < settled.length := by
    have : pruned.length = settled.length := List.Forall₂.length_eq htouched
    omega
  have htu : Touched v pruned[i] settled[i] := List.Forall₂.get htouched hi hi'
  have hbury : settled[i] ∈ buryTransitions settled :=
    List.mem_filter.mpr ⟨List.getElem_mem hi', by rw [htu.isDead_eq_false (hany _ ht)]; rfl⟩
  refine ⟨_, List.mem_map.mpr ⟨_, hbury, rfl⟩, ?_⟩
  split
  · refine ⟨(Transition.edge_withLookahead _ _).trans htu.edge_eq, Or.inl ?_⟩
    exact (Transition.lookahead_withLookahead _ _).elim id id
  · refine ⟨htu.edge_eq, ?_⟩
    rcases htu with e | hlook
    · exact Or.inl (by rw [e, hany _ ht])
    · exact Or.inr hlook

end Refinement

namespace Grammar

/-- All rules but rule 0 have one priority. -/
def EqualPriorities (g : Grammar) : Prop := ∃ p : Int, ∀ rule ∈ g.rules.tail, rule.priority = p

theorem priorityOf_eq {g : Grammar} {p : Int} (h : ∀ rule ∈ g.rules.tail, rule.priority = p)
    {r : RuleId} (hr : r.index < g.rules.length) (hne : r.index ≠ 0) : g.priorityOf r = p := by
  have hrule : g.rule? r = some g.rules[r.index] := List.getElem?_eq_getElem hr
  rw [priorityOf, hrule]
  refine h _ ?_
  obtain ⟨i, hi⟩ := Nat.exists_eq_succ_of_ne_zero hne
  refine List.mem_of_getElem? (i := i) ?_
  rw [List.getElem?_tail, ← Nat.succ_eq_add_one, ← hi]
  exact List.getElem?_eq_getElem hr

end Grammar

namespace Automaton

theorem admits_withLookahead (t : Transition) {l : Lookahead} {rest : List SymbolId}
    (h : l.Admits rest) : (t.withLookahead l).lookahead.Admits rest := by
  rcases t.lookahead_withLookahead l with e | e
  · rw [e]
    exact h
  · rw [e]
    exact Lookahead.admits_any rest

variable {g : Grammar} (wf : g.WellFormed) {a : Automaton} (hc : Canonical g a)

include wf hc

theorem isLive_of_wanted {n : Nat} {s : State} (hs : a.states[n]? = some s) {t : Transition}
    (ht : t ∈ s.transitions) {item : Item} {rest : List SymbolId}
    (hposition : s.itemSet.items[t.origin.position]? = some item)
    (hwanted : a.Wanted g t item rest) :
    Refinement.isLive (Survey.make g a) t = .ok true := by
  obtain ⟨target, item', _, hitem, hposition', hprescribes⟩ := hc.prescribes_of_mem hs ht
  rw [hposition] at hposition'
  cases hposition'
  unfold Refinement.isLive
  unfold Wanted at hwanted
  cases hm : t.move with
  | shift id l => rfl
  | goto id => rfl
  | accept => rfl
  | reduce l =>
    rw [hm] at hprescribes hwanted
    obtain ⟨hend, _⟩ := hprescribes.of_reduce
    have hbelongs := hc.belongsTo wf hs item (List.mem_of_getElem? hposition)
    have hahead : a.Ahead g item (t.symbol :: rest) := hwanted.ahead hend
    have hfirst : (Survey.make g a).firstSet t.origin =
        .ok (item.firstWith g (a.followTable g)) := Survey.firstSet_eq_ok wf hitem hbelongs
    refine bind_eq_ok.mpr ⟨_, hfirst, ?_⟩
    rw [SymbolSet.contains_iff.mpr (hahead.mem_firstWith wf hbelongs.1)]
    rfl

theorem admits_of_wanted {n : Nat} {s : State} (hs : a.states[n]? = some s) {t t' : Transition}
    (ht : t ∈ s.transitions) {item : Item} {rest : List SymbolId}
    (hposition : s.itemSet.items[t.origin.position]? = some item)
    (hwanted : a.Wanted g t item rest) (hlook : (Survey.make g a).lookInto t = .ok t') :
    t'.lookahead.Admits rest := by
  obtain ⟨target, item', _, hitem, hposition', hprescribes⟩ := hc.prescribes_of_mem hs ht
  rw [hposition] at hposition'
  cases hposition'
  have hbelongs := hc.belongsTo wf hs item (List.mem_of_getElem? hposition)
  have hany : t.lookahead = .any := hprescribes.lookahead_eq
  unfold Wanted at hwanted
  have hother : t.move.carriesLookahead = false → t'.lookahead.Admits rest := by
    intro hno
    cases (Survey.lookInto_other hno).symm.trans hlook
    rw [hany]
    exact Lookahead.admits_any rest
  cases hm : t.move with
  | shift id l =>
    rw [hm] at hprescribes hwanted
    obtain ⟨hx, _, _⟩ := hprescribes.of_shift
    obtain ⟨l', hl', e⟩ := map_eq_ok.mp ((Survey.lookInto_shift hm).symm.trans hlook)
    cases e
    exact admits_withLookahead t
      (Survey.shiftLookahead_admits wf hc.index_id hl' hitem hbelongs hx hwanted)
  | reduce l =>
    rw [hm] at hprescribes hwanted
    have hitems : ∀ item ∈ (Survey.make g a).items, item.BelongsTo g := fun item =>
      belongsTo_of_mem_items wf
    cases (Survey.lookInto_reduce (v := .make g a) wf hitems hm hitem hbelongs).symm.trans hlook
    have hleft := Grammar.lt_of_isNonterminal (wf.isNonterminal_leftOf hbelongs.1)
    exact admits_withLookahead t (Survey.reduceLookahead_admits wf hleft hwanted)
  | goto id =>
    rw [hm] at hother
    exact hother rfl
  | accept =>
    rw [hm] at hother
    exact hother rfl

/-- Shifts and reductions of the canonical collection stem from user rules. -/
theorem priority_eq {p : Int} (hequal : ∀ rule ∈ g.rules.tail, rule.priority = p) {n : Nat}
    {s : State} (hs : a.states[n]? = some s) {t : Transition} (ht : t ∈ s.transitions)
    (hkind : t.kind = .shift ∨ t.kind = .reduce) :
    (Survey.make g a).priority t = .ok p := by
  obtain ⟨target, item, _, hitem, hposition, hprescribes⟩ := hc.prescribes_of_mem hs ht
  have hbelongs := hc.belongsTo wf hs item (List.mem_of_getElem? hposition)
  have hne : item.rule.index ≠ 0 := by
    unfold Transition.kind at hkind
    cases hm : t.move with
    | shift id l =>
      rw [hm] at hprescribes
      obtain ⟨hx, hterminal, _⟩ := hprescribes.of_shift
      intro hzero
      obtain ⟨start, _, hrule, hstart⟩ := wf.exists_start
      have hget : g.rule? item.rule = some (Builder.acceptRule start) := by
        rw [Grammar.rule?, Handle.get?, hzero]
        exact hrule
      have hright : g.rightOf item.rule = [start] := Grammar.rightOf_of_rule? hget
      have hmem : t.symbol ∈ g.rightOf item.rule := List.mem_of_getElem? hx
      rw [hright, List.mem_singleton] at hmem
      rw [hmem, Grammar.isTerminal_of_isNonterminal hstart] at hterminal
      cases hterminal
    | goto id =>
      rw [hm] at hkind
      rcases hkind with h | h <;> cases h
    | reduce l =>
      rw [hm] at hprescribes
      exact hprescribes.of_reduce.2
    | accept =>
      rw [hm] at hkind
      rcases hkind with h | h <;> cases h
  rw [← Grammar.priorityOf_eq hequal hbelongs.1 hne]
  exact Survey.priority_eq_ok hitem hbelongs

/-- Without priorities a refined automaton serves the one it was made from. -/
theorem refine_serves (hequal : g.EqualPriorities) {b : Automaton} {events : List Event}
    (h : a.refine g = .ok (b, events)) : Serves g b a := by
  obtain ⟨p, hp⟩ := hequal
  intro n s s' t item rest hs hs' ht hposition hwanted
  obtain ⟨_, _, hrefined⟩ := (refined_of_refine wf h).at hs hs'
  have hany : ∀ u ∈ s.transitions, u.lookahead = .any := by
    intro u hu
    obtain ⟨_, _, _, _, _, hprescribes⟩ := hc.prescribes_of_mem hs hu
    exact hprescribes.lookahead_eq
  obtain ⟨t', ht', hedge, hl⟩ := Refinement.exists_of_refined hrefined hany
    (fun u hu hkind => priority_eq wf hc hp hs hu hkind) ht
    (isLive_of_wanted wf hc hs ht hposition hwanted)
  refine ⟨t', ht', hedge, ?_⟩
  rcases hl with e | hlook
  · rw [e]
    exact Lookahead.admits_any rest
  · exact admits_of_wanted wf hc hs ht hposition hwanted hlook

end Automaton
end ShiftReduce
