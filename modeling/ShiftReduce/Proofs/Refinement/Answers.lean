/-
Every pass of a refinement answers.

What the passes ask about a transition of the canonical collection has an answer: the
item it stems from is there, and so is the item behind the symbol of a shift.  The
answers do not depend on lookaheads, so they stay while the passes change nothing else.
`Canonical.ready` says in what state the transitions of a state are when settling begins.
-/
import ShiftReduce.Proofs.Refinement.Resolvable

namespace ShiftReduce

theorem exists_retain_ok {α ε : Type} {p : α → Except ε Bool} {xs : List α}
    (h : ∀ x ∈ xs, ∃ kept, p x = .ok kept) : ∃ ys, retain p xs = .ok ys := by
  induction xs with
  | nil => exact ⟨[], rfl⟩
  | cons x rest ih =>
    obtain ⟨hx, hrest⟩ := List.forall_mem_cons.mp h
    obtain ⟨kept, hkept⟩ := hx
    obtain ⟨ys, hys⟩ := ih hrest
    exact ⟨if kept then x :: ys else ys, bind_eq_ok.mpr ⟨ys, hys,
      bind_eq_ok.mpr ⟨kept, hkept, by cases kept <;> rfl⟩⟩⟩

namespace Refinement

variable {v : Survey}

/-! ## One list of transitions -/

/-- What the passes ask about a transition has an answer. -/
structure Answered (v : Survey) (t : Transition) : Prop where
  live : ∃ kept, isLive v t = .ok kept
  look : ∃ t', v.lookInto t = .ok t'
  priority : ∃ p, v.priority t = .ok p

theorem isLive_of_edge {t u : Transition} (h : t.edge = u.edge) : isLive v t = isLive v u := by
  obtain ⟨origin, symbol, move⟩ := t
  obtain ⟨origin', symbol', move'⟩ := u
  cases move <;> cases move' <;> cases h <;> rfl

theorem Answered.of_edge {t u : Transition} (h : Answered v t) (he : u.edge = t.edge) :
    Answered v u where
  live := by
    rw [isLive_of_edge he]
    exact h.live
  look := by
    cases hcarries : u.move.carriesLookahead with
    | false => exact ⟨u, Survey.lookInto_other hcarries⟩
    | true =>
      rw [Survey.lookInto_of_edge he hcarries]
      exact h.look
  priority := by
    rw [priority_of_edge he]
    exact h.priority

theorem answered_set {ts : List Transition} (h : ∀ t ∈ ts, Answered v t) {i : Nat}
    {t : Transition} (ht : Answered v t) : ∀ u ∈ ts.set i t, Answered v u := by
  intro u hu
  rcases List.mem_or_eq_of_mem_set hu with hu | rfl
  · exact h u hu
  · exact ht

theorem exists_prune_ok {ts : List Transition} (h : ∀ t ∈ ts, Answered v t) :
    ∃ ts', pruneTransitions v ts = .ok ts' :=
  exists_retain_ok fun t ht => (h t ht).live

theorem exists_lookAheadBoth_ok {ts : List Transition} (h : ∀ t ∈ ts, Answered v t) (r s : Nat) :
    ∃ result, lookAheadBoth v ts r s = .ok result ∧ ∀ t ∈ result.1, Answered v t := by
  unfold lookAheadBoth
  split
  · rename_i reduction shift hr hs
    have hreduction := h reduction (List.mem_of_getElem? hr)
    have hshift := h shift (List.mem_of_getElem? hs)
    split
    · obtain ⟨shift', hshift'⟩ := hshift.look
      obtain ⟨reduction', hreduction'⟩ := hreduction.look
      refine ⟨_, bind_eq_ok.mpr ⟨shift', hshift', bind_eq_ok.mpr ⟨reduction', hreduction', rfl⟩⟩,
        ?_⟩
      exact answered_set (answered_set h (hshift.of_edge (Survey.edge_of_lookInto hshift')))
        (hreduction.of_edge (Survey.edge_of_lookInto hreduction'))
    · exact ⟨_, rfl, h⟩
  · exact ⟨_, rfl, h⟩

theorem exists_lookAhead_ok {ts : List Transition} (h : ∀ t ∈ ts, Answered v t) :
    ∃ result, lookAheadTransitions v ts = .ok result := by
  refine exists_foldlM_ok (fun m : List Transition × List (Nat × Nat) => ∀ t ∈ m.1, Answered v t)
    (fun pair _ m hm => ?_) h
  obtain ⟨result, hresult, hall⟩ := exists_lookAheadBoth_ok hm pair.1 pair.2
  exact ⟨_, bind_eq_ok.mpr ⟨result, hresult, rfl⟩, hall⟩

theorem exists_settlePair_ok {m : Ledger} (h : ∀ t ∈ m.transitions, Answered v t)
    (i j : Nat) : ∃ m', m.settle v i j = .ok m' := by
  unfold Ledger.settle
  split
  · rename_i t u ht hu
    have hp := (h t (List.mem_of_getElem? ht)).priority
    have hq := (h u (List.mem_of_getElem? hu)).priority
    split
    · refine exists_bind_ok hp fun p _ => exists_bind_ok hq fun q _ => ?_
      split
      · exact ⟨_, rfl⟩
      · split
        · exact ⟨_, rfl⟩
        · exact ⟨_, rfl⟩
    · exact ⟨m, rfl⟩
  · exact ⟨m, rfl⟩

theorem answered_givesWay {m m' : Ledger} {low high : Nat} (hway : GivesWay v m low high m')
    (h : ∀ t ∈ m.transitions, Answered v t) : ∀ t ∈ m'.transitions, Answered v t := by
  obtain ⟨lower, higher, _, _, hlow, _, _, _, _, _, rfl⟩ := hway
  exact answered_set h ((h lower (List.mem_of_getElem? hlow)).of_edge (lower.edge_withLookahead _))

theorem exists_settle_ok {ts : List Transition} (h : ∀ t ∈ ts, Answered v t) :
    ∃ result, settleTransitions v ts = .ok result := by
  have step : ∀ pair ∈ settlingOrder ts, ∀ m : Ledger, (∀ t ∈ m.transitions, Answered v t) →
      ∃ m', Ledger.settle v m pair.1 pair.2 = .ok m' ∧ ∀ t ∈ m'.transitions, Answered v t := by
    intro pair _ m hm
    obtain ⟨m', hm'⟩ := exists_settlePair_ok hm pair.1 pair.2
    refine ⟨m', hm', ?_⟩
    rcases settle_eq_ok hm' with rfl | hway | hway
    · exact hm
    · exact answered_givesWay hway hm
    · exact answered_givesWay hway hm
  have start : ∀ t ∈ (⟨ts, [], []⟩ : Ledger).transitions, Answered v t := h
  obtain ⟨m, hm⟩ := exists_foldlM_ok _ step start
  exact ⟨_, bind_eq_ok.mpr ⟨m, hm, rfl⟩⟩

end Refinement

namespace Automaton

theorem exists_traverse_ok {β : Type} {a : Automaton}
    {f : List Transition → Except Failure (List Transition × β)}
    (h : ∀ s ∈ a.states, ∃ result, f s.transitions = .ok result) :
    ∃ result, a.traverseTransitions f = .ok result := by
  refine exists_bind_ok (exists_mapM_ok fun s hs => ?_) fun results _ => ⟨_, rfl⟩
  exact exists_bind_ok (h s hs) fun result _ => ⟨_, rfl⟩

/-- What the passes ask about the transitions of an automaton has answers. -/
def AllAnswered (v : Survey) (a : Automaton) : Prop :=
  ∀ s ∈ a.states, ∀ t ∈ s.transitions, Refinement.Answered v t

namespace AllAnswered

variable {v : Survey} {a b : Automaton} (h : AllAnswered v a)

include h

theorem exists_prune_ok : ∃ b, a.prune v = .ok b := by
  have hall : ∃ result, (a.traverseTransitions fun ts => do
      return (← Refinement.pruneTransitions v ts, ())) = .ok result :=
    exists_traverse_ok fun s hs =>
      exists_bind_ok (Refinement.exists_prune_ok (h s hs)) fun _ _ => ⟨_, rfl⟩
  obtain ⟨result, hresult⟩ := hall
  rw [Automaton.prune, rework_holding (Refinement.prune_eq v), hresult]
  exact ⟨_, rfl⟩

theorem exists_lookAhead_ok : ∃ result, a.lookAhead v = .ok result := by
  rw [Automaton.lookAhead, reworkStates_holding (Refinement.lookAhead_eq v)]
  exact exists_bind_ok (exists_traverse_ok fun s hs => Refinement.exists_lookAhead_ok (h s hs))
    fun _ _ => ⟨_, rfl⟩

theorem exists_settle_ok : ∃ result, a.settle v = .ok result := by
  rw [Automaton.settle, reworkStates_holding (Refinement.settle_eq v)]
  exact exists_bind_ok (exists_traverse_ok fun s hs => Refinement.exists_settle_ok (h s hs))
    fun _ _ => ⟨_, rfl⟩

theorem prune (hb : a.prune v = .ok b) : AllAnswered v b := by
  intro s' hs' t ht
  obtain ⟨n, s, hs, _, hpruned⟩ := (reworked_prune hb).exists_before hs'
  exact h s (List.mem_of_getElem? hs) t ((mem_of_retain hpruned).mp ht).1

theorem lookAhead {looks : List Event} (hb : a.lookAhead v = .ok (b, looks)) :
    AllAnswered v b := by
  intro s' hs' t ht
  obtain ⟨n, s, hs, _, pairs, hahead⟩ := (reworked_lookAhead hb).exists_before hs'
  obtain ⟨t₀, ht₀, htouched⟩ := (Refinement.touchedAll_lookAhead hahead).exists_of_mem ht
  exact (h s (List.mem_of_getElem? hs) t₀ ht₀).of_edge htouched.edge_eq

end AllAnswered

/-- What some state has is found. -/
theorem exists_locate_ok {g : Grammar} {a : Automaton} {item : Item} (h : item ∈ a.items g) :
    ∃ site, a.locate g item = .ok site := by
  obtain ⟨s, hs, hmem⟩ := List.any_eq_true.mp (List.mem_filter.mp h).2
  unfold locate
  cases hfound : a.states.findSome? fun s =>
      (s.itemSet.position? item).map fun position => (⟨s.id, position⟩ : Site) with
  | some site => exact ⟨site, rfl⟩
  | none =>
    have hnone := List.findSome?_eq_none_iff.mp hfound s hs
    rw [Option.map_eq_none_iff] at hnone
    have hno := List.findIdx?_eq_none_iff.mp hnone item (List.contains_iff_mem.mp hmem)
    rw [beq_self_eq_true] at hno
    cases hno

section Prescribed

variable {g : Grammar} (wf : g.WellFormed) {target : SymbolId → StateId} {item : Item}
  {x : SymbolId} {move : Move}

include wf

/-- All but gotos are on input symbols. -/
theorem Prescribes.isTerminal (h : Prescribes g target item x move) (hkind : move.kind ≠ .goto) :
    g.isTerminal x = true := by
  cases h with
  | shift _ hterminal => exact hterminal
  | goto _ _ => exact absurd rfl hkind
  | reduce _ _ hx =>
    refine wf.mem_inputSymbols.mp (List.mem_append.mpr (hx.imp_right ?_))
    exact List.mem_singleton.mpr
  | accept _ _ => exact wf.isTerminal_endMarker

/-- What is shifted stands on the right of a rule, and the end marker does not. -/
theorem Prescribes.ne_endMarker (h : Prescribes g target item x move)
    (hkind : move.kind = .shift) : x ≠ .endMarker := by
  cases h with
  | shift hx _ => exact (wf.mem_rightOf (List.mem_of_getElem? hx)).2.1
  | goto _ _ => cases hkind
  | reduce _ _ _ => cases hkind
  | accept _ _ => cases hkind

omit wf in
theorem Prescribes.eq_endMarker (h : Prescribes g target item x move)
    (hkind : move.kind = .accept) : x = .endMarker := by
  cases h with
  | shift _ _ => cases hkind
  | goto _ _ => cases hkind
  | reduce _ _ _ => cases hkind
  | accept _ _ => rfl

theorem Prescribes.symbol_lt (h : Prescribes g target item x move) :
    x.index < g.symbols.length := by
  by_cases hkind : move.kind = .goto
  · cases h with
    | shift _ _ => cases hkind
    | goto _ hn => exact Grammar.lt_of_isNonterminal hn
    | reduce _ _ _ => cases hkind
    | accept _ _ => cases hkind
  · exact Grammar.lt_of_isTerminal (h.isTerminal wf hkind)

end Prescribed

namespace Canonical

variable {g : Grammar} (wf : g.WellFormed) {a : Automaton} (hc : Canonical g a)

include wf hc

/-- The lookahead of a shift is found behind its symbol, that of a reduction from the
rule.  It has one set of input symbols at most. -/
theorem exists_lookInto_ok {n : Nat} {s : State} (hs : a.states[n]? = some s) {t : Transition}
    (ht : t ∈ s.transitions) : ∃ l : Lookahead, l.Simple g ∧
      (Survey.make g a).lookInto t = .ok (t.withLookahead l) := by
  obtain ⟨target, item, _, hitem, hposition, hprescribes⟩ := hc.prescribes_of_mem hs ht
  have hbelongs := hc.belongsTo wf hs item (List.mem_of_getElem? hposition)
  cases hm : t.move with
  | shift id l =>
    rw [hm] at hprescribes
    obtain ⟨hx, _, _⟩ := hprescribes.of_shift
    have hmoved := hc.moved_mem_items wf hs (List.mem_of_getElem? hposition) hx
    obtain ⟨site, hsite⟩ := exists_locate_ok hmoved
    have hl := Survey.shiftLookahead_eq_ok (v := .make g a) wf
      ((advancedSite_eq_ok hitem hbelongs hx).mpr hsite) (item_of_locate hc.index_id hsite)
      (belongsTo_of_mem_items wf hmoved)
    have hlook : (Survey.make g a).lookInto t = .ok _ :=
      (Survey.lookInto_shift hm).trans (congrArg (t.withLookahead <$> ·) hl)
    exact ⟨_, Lookahead.simple_ofSet (wf.ofInput_firstWith (wf.ofInput_followTable a) _), hlook⟩
  | reduce l =>
    have hlook := Survey.lookInto_reduce (v := .make g a) wf (fun _ => belongsTo_of_mem_items wf)
      hm hitem hbelongs
    exact ⟨_, Survey.simple_reduceLookahead wf (item.left g) t.symbol, hlook⟩
  | goto id =>
    refine ⟨.any, Lookahead.simple_any g, ?_⟩
    rw [← hc.any_lookahead (List.mem_of_getElem? hs) ht, t.withLookahead_lookahead]
    exact Survey.lookInto_other (by rw [hm]; rfl)
  | accept =>
    refine ⟨.any, Lookahead.simple_any g, ?_⟩
    rw [← hc.any_lookahead (List.mem_of_getElem? hs) ht, t.withLookahead_lookahead]
    exact Survey.lookInto_other (by rw [hm]; rfl)

theorem answered {n : Nat} {s : State} (hs : a.states[n]? = some s) {t : Transition}
    (ht : t ∈ s.transitions) : Refinement.Answered (Survey.make g a) t := by
  obtain ⟨_, item, _, hitem, hposition, _⟩ := hc.prescribes_of_mem hs ht
  have hbelongs := hc.belongsTo wf hs item (List.mem_of_getElem? hposition)
  obtain ⟨l, _, hl⟩ := hc.exists_lookInto_ok wf hs ht
  refine { live := ?_, look := ⟨_, hl⟩, priority := ⟨_, Survey.priority_eq_ok hitem hbelongs⟩ }
  unfold Refinement.isLive
  cases t.move with
  | reduce l =>
    exact ⟨_, bind_eq_ok.mpr ⟨_, Survey.firstSet_eq_ok (v := .make g a) wf hitem hbelongs, rfl⟩⟩
  | shift id l => exact ⟨true, rfl⟩
  | goto id => exact ⟨true, rfl⟩
  | accept => exact ⟨true, rfl⟩

/-- All passes answer on the canonical collection. -/
theorem exists_refine_ok : ∃ (pruned ahead settled : Automaton)
    (looks verdicts events : List Event), a.prune (.make g a) = .ok pruned ∧
      pruned.lookAhead (.make g a) = .ok (ahead, looks) ∧
      ahead.settle (.make g a) = .ok (settled, verdicts) ∧
        a.refine g = .ok (settled.cleaned, events) := by
  have hanswered : AllAnswered (.make g a) a := by
    intro s hs t ht
    obtain ⟨n, hn⟩ := List.mem_iff_getElem?.mp hs
    exact hc.answered wf hn ht
  obtain ⟨pruned, hpruned⟩ := hanswered.exists_prune_ok
  have hanswered₁ := hanswered.prune hpruned
  obtain ⟨⟨ahead, looks⟩, hahead⟩ := hanswered₁.exists_lookAhead_ok
  have hanswered₂ := hanswered₁.lookAhead hahead
  obtain ⟨⟨settled, verdicts⟩, hsettled⟩ := hanswered₂.exists_settle_ok
  obtain ⟨events, hrefine⟩ :=
    refine_of_passes (Checked.survey_eq_ok wf a) hpruned hahead hsettled
  exact ⟨pruned, ahead, settled, looks, verdicts, events, hpruned, hahead, hsettled, hrefine⟩

/-- In the canonical collection only an accept and a reduction that are in each other's way
involve a transition without a lookahead. -/
theorem apart {n : Nat} {s : State} (hs : a.states[n]? = some s) {t u : Transition}
    (ht : t ∈ s.transitions) (hu : u ∈ s.transitions) (hsymbol : t.symbol = u.symbol)
    (houtcome : t.sameOutcome u = false) (hbystander : t.move.carriesLookahead = false) :
    t.kind = .accept ∧ u.kind = .reduce := by
  obtain ⟨target, hcomplete⟩ := hc.complete s (List.mem_of_getElem? hs)
  obtain ⟨item, _, _, hprescribes⟩ := (hcomplete.mem_iff t).mp ht
  obtain ⟨item', _, _, hprescribes'⟩ := (hcomplete.mem_iff u).mp hu
  obtain ⟨origin, x, move⟩ := t
  obtain ⟨origin', x', move'⟩ := u
  obtain rfl : x = x' := hsymbol
  change Prescribes g target item x move at hprescribes
  change Prescribes g target item' x move' at hprescribes'
  cases hprescribes with
  | shift _ _ => cases hbystander
  | reduce _ _ _ => cases hbystander
  | goto _ hn =>
    by_cases hkind : move'.kind = .goto
    · cases hprescribes' with
      | shift _ _ => cases hkind
      | goto _ _ =>
        rw [Transition.sameOutcome] at houtcome
        simp at houtcome
      | reduce _ _ _ => cases hkind
      | accept _ _ => cases hkind
    · have hterminal := hprescribes'.isTerminal wf hkind
      rw [Grammar.isTerminal_of_isNonterminal hn] at hterminal
      cases hterminal
  | accept _ _ =>
    cases hprescribes' with
    | shift hx _ => exact absurd rfl (wf.mem_rightOf (List.mem_of_getElem? hx)).2.1
    | goto hx _ => exact absurd rfl (wf.mem_rightOf (List.mem_of_getElem? hx)).2.1
    | reduce _ _ _ => exact ⟨rfl, rfl⟩
    | accept _ _ => cases houtcome

/-- A lookahead that is there by then is of input symbols. -/
theorem simple_of_touched {n : Nat} {s : State} (hs : a.states[n]? = some s) {t t' : Transition}
    (ht : t ∈ s.transitions) (h : Refinement.Touched (.make g a) t t') : t'.lookahead.Simple g := by
  rcases h with rfl | hlook
  · exact hc.any_lookahead (List.mem_of_getElem? hs) ht ▸ Lookahead.simple_any g
  · obtain ⟨l, hl, hlook'⟩ := hc.exists_lookInto_ok wf hs ht
    cases hlook'.symm.trans hlook
    rcases t.lookahead_withLookahead l with e | e
    · rw [e]
      exact hl
    · rw [e]
      exact Lookahead.simple_any g

/-- When all is pruned and looked ahead, the transitions of a state are ready to be settled. -/
theorem ready {n : Nat} {s : State} (hs : a.states[n]? = some s) {pruned ahead : List Transition}
    {pairs : List (Nat × Nat)}
    (hpruned : Refinement.pruneTransitions (.make g a) s.transitions = .ok pruned)
    (hahead : Refinement.lookAheadTransitions (.make g a) pruned = .ok (ahead, pairs)) :
    Refinement.Ready (.make g a) ahead := by
  have stem : ∀ t ∈ ahead, ∃ t₀ ∈ s.transitions, Refinement.Touched (.make g a) t₀ t := by
    intro t ht
    obtain ⟨t₀, ht₀, htouched⟩ := (Refinement.touchedAll_lookAhead hahead).exists_of_mem ht
    exact ⟨t₀, ((mem_of_retain hpruned).mp ht₀).1, htouched⟩
  have hany : ∀ t₀ ∈ s.transitions, t₀.lookahead = .any := fun t₀ ht₀ =>
    hc.any_lookahead (List.mem_of_getElem? hs) ht₀
  obtain ⟨target, hcomplete⟩ := hc.complete s (List.mem_of_getElem? hs)
  -- looking ahead moves no transition and changes no kind
  have prescribed : ∀ t ∈ ahead, t.origin.state = s.id ∧ ∃ (item : Item) (move : Move),
      Prescribes g target item t.symbol move ∧ move.kind = t.kind := by
    intro t ht
    obtain ⟨t₀, ht₀, htouched⟩ := stem t ht
    obtain ⟨item, hstate, _, hprescribes⟩ := (hcomplete.mem_iff t₀).mp ht₀
    rw [Transition.origin_of_edge htouched.edge_eq, Transition.symbol_of_edge htouched.edge_eq,
      Transition.kind_of_edge htouched.edge_eq]
    exact ⟨hstate, item, t₀.move, hprescribes, rfl⟩
  refine
    { state := fun t ht u hu => (prescribed t ht).1.trans (prescribed u hu).1.symm
      symbol := fun t ht => ?_
      simple := fun t ht => ?_
      alive := fun t ht => ?_
      priority := fun t ht => ?_
      apart := fun t ht u hu hsymbol houtcome hbystander => ?_
      accept := fun t ht hkind => ?_
      shift := fun t ht hkind => ?_ }
  · obtain ⟨_, _, _, hprescribes, _⟩ := prescribed t ht
    exact hprescribes.symbol_lt wf
  · obtain ⟨t₀, ht₀, htouched⟩ := stem t ht
    exact hc.simple_of_touched wf hs ht₀ htouched
  · obtain ⟨t₀, ht₀, htouched⟩ := stem t ht
    exact htouched.isDead_eq_false (hany t₀ ht₀)
  · obtain ⟨t₀, ht₀, htouched⟩ := stem t ht
    rw [Refinement.priority_of_edge htouched.edge_eq]
    exact (hc.answered wf hs ht₀).priority
  · obtain ⟨t₀, ht₀, htouched⟩ := stem t ht
    obtain ⟨u₀, hu₀, htouched'⟩ := stem u hu
    rw [Transition.symbol_of_edge htouched.edge_eq,
      Transition.symbol_of_edge htouched'.edge_eq] at hsymbol
    rw [Transition.sameOutcome_of_edge htouched.edge_eq htouched'.edge_eq] at houtcome
    rw [Transition.carriesLookahead_of_edge htouched.edge_eq] at hbystander
    rw [Transition.kind_of_edge htouched.edge_eq, Transition.kind_of_edge htouched'.edge_eq]
    exact hc.apart wf hs ht₀ hu₀ hsymbol houtcome hbystander
  · obtain ⟨_, _, _, hprescribes, hsame⟩ := prescribed t ht
    exact hprescribes.eq_endMarker (hsame.trans hkind)
  · obtain ⟨_, _, _, hprescribes, hsame⟩ := prescribed t ht
    exact hprescribes.ne_endMarker wf (hsame.trans hkind)

end Canonical

end Automaton
end ShiftReduce
