/-
What refinement leaves alone.

A pass may take transitions out of the list of a state and may change lookaheads.  Looked
at without lookaheads, what is left of the list is therefore a sublist of it, in its order,
and that is shown one pass after the other.  `Frame` puts it together with what is known
about single transitions: those without a lookahead stay, and a lookahead that is left is a
set of input symbols which is not empty.

Without priorities nothing is settled and nothing buried, so what is left is what pruning
leaves: all but the reductions on what does not follow.
-/
import ShiftReduce.Proofs.Table.Slr

namespace ShiftReduce

/-- Retaining what passes a test that answers is filtering. -/
theorem eq_filter_of_retain {α ε : Type} {p : α → Except ε Bool} {xs ys : List α}
    (h : retain p xs = .ok ys) : ys = xs.filter fun x => (p x).toOption == some true := by
  induction xs generalizing ys with
  | nil =>
    cases h
    rfl
  | cons x rest ih =>
    rw [retain] at h
    obtain ⟨more, hmore, h⟩ := bind_eq_ok.mp h
    obtain ⟨kept, hkept, h⟩ := bind_eq_ok.mp h
    rw [List.filter_cons, hkept, ← ih hmore]
    cases kept with
    | true =>
      cases h
      rfl
    | false =>
      cases h
      rfl

namespace Refinement

variable {v : Survey}

/-! ## Transitions without their lookaheads -/

theorem TouchedAll.map_edge {ts ts' : List Transition} (h : TouchedAll v ts ts') :
    ts'.map Transition.edge = ts.map Transition.edge := by
  unfold TouchedAll at h
  induction h with
  | nil => rfl
  | cons htouched _ ih => rw [List.map_cons, List.map_cons, htouched.edge_eq, ih]

theorem GivesWay.map_edge {m m' : Ledger} {low high : Nat} (h : GivesWay v m low high m') :
    m'.transitions.map Transition.edge = m.transitions.map Transition.edge := by
  obtain ⟨lower, higher, _, _, hlow, _, _, _, _, _, rfl⟩ := h
  show (m.transitions.set low _).map Transition.edge = _
  obtain ⟨hlt, rfl⟩ := List.getElem?_eq_some_iff.mp hlow
  have hlt' : low < (m.transitions.map Transition.edge).length := by
    rw [List.length_map]
    exact hlt
  have hedge : (m.transitions[low]).edge = (m.transitions.map Transition.edge)[low] :=
    (List.getElem_map Transition.edge).symm
  rw [List.map_set, Transition.edge_withLookahead, hedge, List.set_getElem_self hlt']

theorem sublist_of_settle {ts kept : List Transition} {verdicts : List (Transition × Transition)}
    (h : settleTransitions v ts = .ok (kept, verdicts)) :
    (kept.map Transition.edge).Sublist (ts.map Transition.edge) := by
  obtain ⟨m, hm, h⟩ := bind_eq_ok.mp h
  cases h
  have hedges : m.transitions.map Transition.edge = ts.map Transition.edge := by
    refine foldlM_induction
      (fun m : Ledger => m.transitions.map Transition.edge = ts.map Transition.edge)
      (fun pair _ m m' hm hstep => ?_) rfl hm
    rcases settle_eq_ok hstep with rfl | hway | hway
    · exact hm
    · exact hway.map_edge.trans hm
    · exact hway.map_edge.trans hm
  have hkept : ((m.transitions.zipIdx.filter fun entry =>
      !m.doomed.contains entry.2).map Prod.fst).Sublist m.transitions := by
    have hsublist := (List.filter_sublist (p := fun entry : Transition × Nat =>
      !m.doomed.contains entry.2) (l := m.transitions.zipIdx)).map Prod.fst
    rw [List.zipIdx_map_fst] at hsublist
    exact hsublist
  rw [← hedges]
  exact hkept.map Transition.edge

theorem map_edge_compact (ts : List Transition) :
    (compactTransitions ts).map Transition.edge = ts.map Transition.edge := by
  rw [compactTransitions, List.map_map]
  exact List.map_congr_left fun t _ => edge_compacted ts t

/-- What is left in the end was there when all was pruned. -/
theorem sublist_of_pruned {pruned ahead settled : List Transition} {pairs : List (Nat × Nat)}
    {verdicts : List (Transition × Transition)}
    (hahead : lookAheadTransitions v pruned = .ok (ahead, pairs))
    (hsettled : settleTransitions v ahead = .ok (settled, verdicts)) :
    ((compactTransitions (buryTransitions settled)).map Transition.edge).Sublist
      (pruned.map Transition.edge) := by
  have hbury : (buryTransitions settled).Sublist settled := List.filter_sublist
  rw [map_edge_compact, ← (touchedAll_lookAhead hahead).map_edge]
  exact (hbury.map _).trans (sublist_of_settle hsettled)

theorem sublist_of_refined {ts ts' : List Transition} (h : Refined v ts ts') :
    (ts'.map Transition.edge).Sublist (ts.map Transition.edge) := by
  obtain ⟨pruned, ahead, settled, pairs, verdicts, hpruned, hahead, hsettled, rfl⟩ := h
  have hprune : (pruned.map Transition.edge).Sublist (ts.map Transition.edge) := by
    rw [eq_filter_of_retain hpruned]
    exact List.filter_sublist.map _
  exact (sublist_of_pruned hahead hsettled).trans hprune

/-! ## Lookaheads -/

theorem isDead_eq_false_of_refined {ts ts' : List Transition} (h : Refined v ts ts')
    {t' : Transition} (ht' : t' ∈ ts') : t'.lookahead.isDead = false := by
  obtain ⟨_, _, settled, _, _, _, _, _, rfl⟩ := h
  obtain ⟨t, ht, rfl⟩ := List.mem_map.mp ht'
  split
  · have hany : (t.withLookahead .any).lookahead = .any :=
      (t.lookahead_withLookahead .any).elim id id
    rw [hany]
    rfl
  · exact Bool.not_eq_true' .. ▸ (List.mem_filter.mp ht).2

/-- What a refinement makes of the transitions of a state. -/
structure Frame (g : Grammar) (ts ts' : List Transition) : Prop where
  /-- Lookaheads aside, what is left is left as it was and in its order. -/
  edges : (ts'.map Transition.edge).Sublist (ts.map Transition.edge)
  /-- Gotos and accepts are left. -/
  bystanders : ∀ t ∈ ts, t.kind = .goto ∨ t.kind = .accept → t ∈ ts'
  /-- Nothing that is left comes from elsewhere or leads elsewhere than before. -/
  stems : ∀ t' ∈ ts', ∃ t ∈ ts, t'.origin = t.origin ∧ t'.symbol = t.symbol ∧ t'.kind = t.kind ∧
    t'.target? = t.target?
  /-- A lookahead is a set of input symbols, and not empty. -/
  lookaheads : ∀ t' ∈ ts', t'.lookahead = .any ∨
    ∃ s : SymbolSet, t'.lookahead = ⟨[s]⟩ ∧ s ≠ ∅ ∧ ∀ u ∈ s, u ∈ g.inputSymbols

end Refinement

namespace Automaton.Canonical

variable {g : Grammar} {a : Automaton} (hc : Canonical g a) (wf : g.WellFormed)

include hc wf

theorem frame_of_refined {n : Nat} {s : State} (hs : a.states[n]? = some s)
    {ts' : List Transition} (h : Refinement.Refined (.make g a) s.transitions ts') :
    Refinement.Frame g s.transitions ts' where
  edges := Refinement.sublist_of_refined h
  bystanders := by
    intro t ht hkind
    refine Refinement.mem_refined_of_bystander h ht (Bool.eq_false_iff.mpr fun hcarries => ?_)
    rcases Transition.carriesLookahead_iff.mp hcarries with e | e
    · rw [e] at hkind
      rcases hkind with e | e <;> cases e
    · rw [e] at hkind
      rcases hkind with e | e <;> cases e
  stems := by
    intro t' ht'
    have hedge := (Refinement.sublist_of_refined h).subset (List.mem_map_of_mem ht')
    obtain ⟨t, ht, he⟩ := List.mem_map.mp hedge
    refine ⟨t, ht, Transition.origin_of_edge he.symm, Transition.symbol_of_edge he.symm,
      Transition.kind_of_edge he.symm, ?_⟩
    rw [← t'.target?_edge, ← he, t.target?_edge]
  lookaheads := by
    intro t' ht'
    have halive := Refinement.isDead_eq_false_of_refined h ht'
    obtain ⟨pruned, ahead, settled, pairs, verdicts, hpruned, hahead, hsettled, rfl⟩ := h
    have ready := hc.ready wf hs hpruned hahead
    obtain ⟨_, _, _, hsize, hinput⟩ := Refinement.exists_stem_of_settled wf ready hsettled ht'
    rcases Lookahead.eq_any_or_singleton hsize with hany | ⟨set, hset⟩
    · exact Or.inl hany
    · rw [hset] at halive hinput
      refine Or.inr ⟨set, hset, ?_, fun u hu => ?_⟩
      · rintro rfl
        cases halive
      · exact wf.mem_inputSymbols.mpr (hinput set List.mem_cons_self u hu)

/-- With one priority for all rules, what is left is what pruning leaves. -/
theorem exists_filter_of_refined {p : Int} (hp : ∀ rule ∈ g.rules.tail, rule.priority = p) {n : Nat}
    {s : State} (hs : a.states[n]? = some s) {ts' : List Transition}
    (h : Refinement.Refined (.make g a) s.transitions ts') :
    ∃ stays : Transition → Bool,
      (∀ t ∈ s.transitions, stays t = true ↔ Stays g a g.FollowedBy t) ∧
        ts'.map Transition.edge = (s.transitions.filter stays).map Transition.edge := by
  obtain ⟨pruned, ahead, settled, pairs, verdicts, hpruned, hahead, hsettled, rfl⟩ := h
  refine ⟨fun t => (Refinement.isLive (.make g a) t).toOption == some true, fun t ht => ?_, ?_⟩
  · rw [← hc.isLive_iff wf hs ht, beq_iff_eq]
    cases Refinement.isLive (.make g a) t with
    | error e => exact ⟨nofun, nofun⟩
    | ok live => exact ⟨fun he => congrArg Except.ok (Option.some.inj he), fun he =>
        congrArg some (Except.ok.inj he)⟩
  · have htouched := Refinement.touchedAll_lookAhead hahead
    have hequal : ∀ t ∈ ahead, t.kind = .shift ∨ t.kind = .reduce →
        (Survey.make g a).priority t = .ok p := by
      intro t ht hkind
      obtain ⟨t₀, ht₀, htouch⟩ := htouched.exists_of_mem ht
      rw [Transition.kind_of_edge htouch.edge_eq] at hkind
      rw [Refinement.priority_of_edge htouch.edge_eq]
      exact priority_eq wf hc hp hs ((mem_of_retain hpruned).mp ht₀).1 hkind
    have hsame : settled = ahead := Refinement.settle_eq_of_equal hequal hsettled
    have halive : Refinement.buryTransitions ahead = ahead := by
      refine List.filter_eq_self.mpr fun t ht => ?_
      rw [(hc.ready wf hs hpruned hahead).alive t ht]
      rfl
    rw [Refinement.map_edge_compact, hsame, halive, htouched.map_edge]
    exact congrArg (List.map Transition.edge) (eq_filter_of_retain hpruned)

end Automaton.Canonical

namespace Grammar

/-- Refinement leaves the states of the automaton of a grammar what they are, whether it ends
in a conflict or not, and of their transitions it leaves what `Frame` says.  If all rules of
the user have one priority, it takes away the reductions on what does not follow the left
side, and nothing else. -/
theorem refine_frame {g : Grammar} (built : g.Built) (fits : g.Fits) :
    ∃ (b : Automaton) (events : List Event), (Automaton.build g).refine g = .ok (b, events) ∧
      (b.check g = .ok () ∨ ∃ report, b.check g = .error (.conflict report)) ∧
        Automaton.Reworked (Refinement.Frame g) (.build g) b ∧
          (g.EqualPriorities → Automaton.Reworked (fun ts ts' => ∃ stays : Transition → Bool,
            (∀ t ∈ ts, stays t = false ↔ ∃ (l : Lookahead) (item : Item), t.move = .reduce l ∧
              (Automaton.build g).item t.origin = .ok item ∧
                ¬ g.FollowedBy (item.left g) t.symbol) ∧
            ts'.map Transition.edge = (ts.filter stays).map Transition.edge) (.build g) b) := by
  have wf := built.wellFormed fits.symbols fits.rules
  have hc := wf.canonical fits.states
  obtain ⟨_, _, b, _, events, _, _, hrefine, _, hcheck⟩ := refinement_succeeds_iff built fits
  have hrefined := Automaton.refined_of_refine wf hrefine
  refine ⟨b, events, hrefine, hcheck, ?_, ?_⟩
  · exact hrefined.mono fun n s ts' hs h => hc.frame_of_refined wf hs h
  · rintro ⟨p, hp⟩
    refine hrefined.mono fun n s ts' hs h => ?_
    obtain ⟨stays, hstays, hedges⟩ := hc.exists_filter_of_refined wf hp hs h
    refine ⟨stays, fun t ht => ?_, hedges⟩
    rw [← Bool.not_eq_true, hstays t ht, Automaton.Stays]
    simp only [not_forall, exists_prop]

/-- In `doubled` nothing follows but the end of the input: the reduction on `x` was there, and
refinement took it away. -/
theorem refine_frame_doubled : ∃ (g : Grammar) (b : Automaton) (events : List Event),
    ofDefinitions doubled = .ok g ∧ (Automaton.build g).refine g = .ok (b, events) ∧
      Automaton.Reworked (Refinement.Frame g) (.build g) b ∧
        ¬ g.FollowedBy (Handle.ofNat 2) (Handle.ofNat 3) := by
  obtain ⟨g, hg, h⟩ : ∃ g, ofDefinitions doubled = .ok g ∧
      decide (g.Fits ∧ (∀ rule ∈ g.rules.tail, rule.priority = 0) ∧
        (((Automaton.build g).states[3]?).any fun s => s.transitions.any fun t =>
          t.symbol == Handle.ofNat 3 && ((Automaton.build g).item t.origin).toOption.any fun item =>
            item.left g == Handle.ofNat 2) = true ∧
        (((Automaton.build g).refine g).toOption.any fun result =>
          result.1.states[3]?.any fun s => s.transitions.all fun t =>
            t.symbol != Handle.ofNat 3) = true) = true := exists_ok_of_any (by decide +kernel)
  obtain ⟨fits, hequal, hthere, hgone⟩ := of_decide_eq_true h
  obtain ⟨b, events, hrefine, _, hframe, hpruned⟩ := refine_frame (.ofDefinitions hg) fits
  obtain ⟨s, hs, hthere⟩ := (Option.any_eq_true _ _).mp hthere
  obtain ⟨t, ht, hthere⟩ := List.any_eq_true.mp hthere
  obtain ⟨hsymbol, hitem⟩ := Bool.and_eq_true_iff.mp hthere
  obtain ⟨item, hitem, hleft⟩ := exists_ok_of_any hitem
  obtain ⟨result, hresult, hgone⟩ := exists_ok_of_any hgone
  rw [hrefine] at hresult
  cases hresult
  obtain ⟨s', hs', hgone⟩ := (Option.any_eq_true _ _).mp hgone
  obtain ⟨_, _, stays, hstays, hedges⟩ := (hpruned ⟨0, hequal⟩).at hs hs'
  have hfalse : stays t = false := by
    refine Bool.eq_false_iff.mpr fun htrue => ?_
    have hedge := List.mem_map_of_mem (f := Transition.edge) (List.mem_filter.mpr ⟨ht, htrue⟩)
    rw [← hedges] at hedge
    obtain ⟨t', ht', he⟩ := List.mem_map.mp hedge
    have hne := bne_iff_ne.mp (List.all_eq_true.mp hgone t' ht')
    exact hne ((Transition.symbol_of_edge he).trans (beq_iff_eq.mp hsymbol))
  obtain ⟨_, item', _, hitem', hfollow⟩ := (hstays t ht).mp hfalse
  rw [hitem] at hitem'
  cases hitem'
  rw [beq_iff_eq.mp hleft, beq_iff_eq.mp hsymbol] at hfollow
  exact ⟨g, b, events, hg, hrefine, hframe, hfollow⟩

end Grammar
end ShiftReduce
