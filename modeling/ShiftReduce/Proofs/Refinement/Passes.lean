/-
What the passes of a refinement do to a state.

Whatever the priorities, a pass drops transitions and changes lookaheads, and does
nothing else: `refined_stem` says that every transition of a refined state is one
of the state before, with a lookahead of at most one position.  That no state is
added and no item set touched is in the statement of `refine_eq_ok`.

All that a step of settling can do is said once, by `settle_eq_ok`: nothing, or one of
the two transitions gives way to the other.
-/
import ShiftReduce.Proofs.Checked.Survey
import ShiftReduce.Proofs.Refinement.Lists

namespace ShiftReduce

theorem mem_of_retain {α ε : Type} {p : α → Except ε Bool} {xs ys : List α} {x : α}
    (h : retain p xs = .ok ys) : x ∈ ys ↔ x ∈ xs ∧ p x = .ok true := by
  induction xs generalizing ys with
  | nil =>
    cases h
    exact ⟨fun hx => absurd hx List.not_mem_nil, fun hx => absurd hx.1 List.not_mem_nil⟩
  | cons y rest ih =>
    rw [retain] at h
    obtain ⟨more, hmore, h⟩ := bind_eq_ok.mp h
    obtain ⟨kept, hkept, h⟩ := bind_eq_ok.mp h
    rw [List.mem_cons, or_and_right, ← ih hmore]
    cases kept with
    | true =>
      cases h
      rw [List.mem_cons]
      refine or_congr ⟨?_, And.left⟩ Iff.rfl
      rintro rfl
      exact ⟨rfl, hkept⟩
    | false =>
      cases h
      refine (or_iff_right fun hboth => ?_).symm
      rw [hboth.1, hkept] at hboth
      cases hboth.2

namespace Transition

theorem edge_withLookahead (t : Transition) (l : Lookahead) :
    (t.withLookahead l).edge = t.edge := by
  obtain ⟨origin, symbol, move⟩ := t
  cases move <;> rfl

theorem kind_edge (t : Transition) : t.edge.kind = t.kind := by
  obtain ⟨origin, symbol, move⟩ := t
  cases move <;> rfl

theorem target?_edge (t : Transition) : t.edge.target? = t.target? := by
  obtain ⟨origin, symbol, move⟩ := t
  cases move <;> rfl

theorem origin_of_edge {t u : Transition} (h : t.edge = u.edge) : t.origin = u.origin := by
  have e : t.edge.origin = u.edge.origin := congrArg Transition.origin h
  exact e

theorem symbol_of_edge {t u : Transition} (h : t.edge = u.edge) : t.symbol = u.symbol := by
  have e : t.edge.symbol = u.edge.symbol := congrArg Transition.symbol h
  exact e

theorem move_of_edge {t u : Transition} (h : t.edge = u.edge) :
    t.move.withLookahead .any = u.move.withLookahead .any := by
  have e : t.edge.move = u.edge.move := congrArg Transition.move h
  exact e

theorem lookahead_withLookahead (t : Transition) (l : Lookahead) :
    (t.withLookahead l).lookahead = l ∨ (t.withLookahead l).lookahead = .any := by
  obtain ⟨origin, symbol, move⟩ := t
  cases move with
  | shift target l' => exact Or.inl rfl
  | goto target => exact Or.inr rfl
  | reduce l' => exact Or.inl rfl
  | accept => exact Or.inr rfl

end Transition

namespace Lookahead

theorem size_ofSet_le (s : SymbolSet) : (ofSet s).size ≤ 1 := by
  rw [ofSet]
  split
  · exact Nat.zero_le 1
  · exact Nat.le_refl 1

theorem isDead_ofSet (s : SymbolSet) : (ofSet s).isDead = false := by
  rw [ofSet]
  split
  · rfl
  · rename_i h
    rw [isDead, List.any_cons, Bool.eq_false_iff.mpr h]
    rfl

theorem size_without_le (g : Grammar) {l l' : Lookahead} (h : l.size ≤ 1) :
    (l.without g l').size ≤ 1 := by
  obtain ⟨positions⟩ := l
  obtain ⟨positions'⟩ := l'
  unfold without
  cases positions' with
  | nil => exact h
  | cons claimed more =>
    cases positions with
    | nil => exact Nat.le_refl 1
    | cons own rest => exact h

end Lookahead

namespace Survey

/-- What a transition should carry has one position at most and lets something through. -/
theorem size_of_lookaheadOf {v : Survey} {t : Transition} {l : Lookahead}
    (h : v.lookaheadOf t = .ok (some l)) : l.size ≤ 1 ∧ l.isDead = false := by
  unfold lookaheadOf at h
  split at h
  · obtain ⟨l, hl, h⟩ := bind_eq_ok.mp h
    cases h
    obtain ⟨site, _, hl⟩ := bind_eq_ok.mp hl
    obtain ⟨set, _, hl⟩ := bind_eq_ok.mp hl
    cases hl
    exact ⟨Lookahead.size_ofSet_le _, Lookahead.isDead_ofSet _⟩
  · obtain ⟨item, _, h⟩ := bind_eq_ok.mp h
    obtain ⟨left, _, h⟩ := bind_eq_ok.mp h
    obtain ⟨l, hl, h⟩ := bind_eq_ok.mp h
    cases h
    unfold Checked.reduceLookahead at hl
    split at hl
    · cases hl
      exact ⟨Nat.zero_le 1, rfl⟩
    · obtain ⟨ending, _, hl⟩ := bind_eq_ok.mp hl
      obtain ⟨⟨hidden, set⟩, _, hl⟩ := bind_eq_ok.mp hl
      dsimp only at hl
      split at hl
      · cases hl
        exact ⟨Nat.zero_le 1, rfl⟩
      · cases hl
        exact ⟨Lookahead.size_ofSet_le _, Lookahead.isDead_ofSet _⟩
  · cases h
  · cases h

/-- Looking into a transition changes its lookahead: to one that has one position at
most and lets something through. -/
theorem lookInto_eq_ok {v : Survey} {t t' : Transition} (h : v.lookInto t = .ok t') :
    t' = t ∨ ∃ l : Lookahead, t' = t.withLookahead l ∧ l.size ≤ 1 ∧ l.isDead = false := by
  obtain ⟨found, hfound, h⟩ := bind_eq_ok.mp h
  cases found with
  | none =>
    cases h
    exact Or.inl rfl
  | some l =>
    cases h
    exact Or.inr ⟨l, rfl, size_of_lookaheadOf hfound⟩

section Kinds

variable {v : Survey} {t : Transition} {l : Lookahead}

theorem lookInto_shift {target : StateId} (hm : t.move = .shift target l) :
    v.lookInto t = t.withLookahead <$> v.shiftLookahead t.origin := by
  rw [lookInto, lookaheadOf, hm]
  cases v.shiftLookahead t.origin <;> rfl

theorem lookInto_reduce (wf : v.grammar.WellFormed)
    (hitems : ∀ item ∈ v.items, item.BelongsTo v.grammar) {item : Item}
    (hm : t.move = .reduce l) (hitem : v.automaton.item t.origin = .ok item)
    (h : item.BelongsTo v.grammar) :
    v.lookInto t =
      .ok (t.withLookahead (v.reduceLookahead (item.left v.grammar) t.symbol)) := by
  have hl : v.lookaheadOf t = .ok (some (v.reduceLookahead (item.left v.grammar) t.symbol)) := by
    rw [lookaheadOf, hm]
    exact bind_eq_ok.mpr ⟨item, hitem, bind_eq_ok.mpr ⟨_, Checked.left_eq_ok h,
      bind_eq_ok.mpr ⟨_, Checked.reduceLookahead_eq_ok wf hitems _ t.symbol, rfl⟩⟩⟩
  exact bind_eq_ok.mpr ⟨_, hl, rfl⟩

/-- A goto or an accept is left as it is. -/
theorem lookInto_other (h : t.move.carriesLookahead = false) : v.lookInto t = .ok t := by
  obtain ⟨origin, symbol, move⟩ := t
  cases move with
  | shift target l => cases h
  | goto target => rfl
  | reduce l => cases h
  | accept => rfl

end Kinds

theorem edge_of_lookInto {v : Survey} {t t' : Transition} (h : v.lookInto t = .ok t') :
    t'.edge = t.edge := by
  rcases lookInto_eq_ok h with rfl | ⟨l, rfl, _⟩
  · rfl
  · exact t.edge_withLookahead l

/-- No lookahead is called for only where none is carried. -/
theorem carriesLookahead_of_lookaheadOf {v : Survey} {t : Transition}
    (h : v.lookaheadOf t = .ok none) : t.move.carriesLookahead = false := by
  unfold lookaheadOf at h
  split at h
  · obtain ⟨l, _, h⟩ := bind_eq_ok.mp h
    cases h
  · obtain ⟨item, _, h⟩ := bind_eq_ok.mp h
    obtain ⟨left, _, h⟩ := bind_eq_ok.mp h
    obtain ⟨l, _, h⟩ := bind_eq_ok.mp h
    cases h
  · rename_i target hmove
    rw [hmove]
    rfl
  · rename_i hmove
    rw [hmove]
    rfl

/-- What a lookahead should be does not depend on the one that is there. -/
theorem lookInto_of_edge {v : Survey} {t u : Transition} (h : t.edge = u.edge)
    (hcarries : t.move.carriesLookahead = true) : v.lookInto t = v.lookInto u := by
  have hsame : v.lookaheadOf t = v.lookaheadOf u ∧ ∀ l, t.withLookahead l = u.withLookahead l := by
    obtain ⟨origin, symbol, move⟩ := t
    obtain ⟨origin', symbol', move'⟩ := u
    cases move <;> cases move' <;> cases h
    · exact ⟨rfl, fun _ => rfl⟩
    · cases hcarries
    · exact ⟨rfl, fun _ => rfl⟩
    · cases hcarries
  rw [lookInto, lookInto, ← hsame.1]
  cases hfound : v.lookaheadOf t with
  | error e => rfl
  | ok found =>
    cases found with
    | some l => exact congrArg Except.ok (hsame.2 l)
    | none =>
      rw [carriesLookahead_of_lookaheadOf hfound] at hcarries
      cases hcarries

theorem lookInto_again {v : Survey} {t u t' : Transition} (h : v.lookInto t = .ok u)
    (h' : v.lookInto u = .ok t') : v.lookInto t = .ok t' := by
  by_cases hcarries : t.move.carriesLookahead = true
  · rw [lookInto_of_edge (edge_of_lookInto h).symm hcarries]
    exact h'
  · obtain ⟨origin, symbol, move⟩ := t
    cases move with
    | shift target l => exact absurd rfl hcarries
    | goto target =>
      cases h
      exact h'
    | reduce l => exact absurd rfl hcarries
    | accept =>
      cases h
      exact h'

end Survey

namespace Refinement

/-! ## One list of transitions -/

/-- The transition stems from one of a list: it differs in its lookahead at most,
which has one position at most. -/
def Stems (ts : List Transition) (t' : Transition) : Prop :=
  (∃ t ∈ ts, t'.edge = t.edge) ∧ t'.lookahead.size ≤ 1

theorem Stems.withLookahead {ts : List Transition} {t' : Transition} (h : Stems ts t')
    {l : Lookahead} (hl : l.size ≤ 1) : Stems ts (t'.withLookahead l) := by
  obtain ⟨⟨t, ht, he⟩, _⟩ := h
  refine ⟨⟨t, ht, (t'.edge_withLookahead l).trans he⟩, ?_⟩
  rcases t'.lookahead_withLookahead l with e | e
  · rw [e]
    exact hl
  · rw [e]
    exact Nat.zero_le 1

theorem Stems.of_lookInto {v : Survey} {ts : List Transition} {t t' : Transition}
    (h : Stems ts t) (ht' : v.lookInto t = .ok t') : Stems ts t' := by
  rcases Survey.lookInto_eq_ok ht' with rfl | ⟨l, rfl, hl, _⟩
  · exact h
  · exact h.withLookahead hl

/-- A pair is left alone, or both its transitions are looked into. -/
theorem lookAheadBoth_eq_ok {v : Survey} {ts ts' : List Transition} {r s : Nat} {changed : Bool}
    (h : lookAheadBoth v ts r s = .ok (ts', changed)) :
    ts' = ts ∨ ∃ reduction shift reduction' shift' : Transition, ts[r]? = some reduction ∧
      ts[s]? = some shift ∧ v.lookInto reduction = .ok reduction' ∧
      v.lookInto shift = .ok shift' ∧ ts' = (ts.set s shift').set r reduction' := by
  unfold lookAheadBoth at h
  split at h
  · rename_i reduction shift hr hs
    split at h
    · obtain ⟨shift', hshift, h⟩ := bind_eq_ok.mp h
      obtain ⟨reduction', hreduction, h⟩ := bind_eq_ok.mp h
      cases h
      exact Or.inr ⟨reduction, shift, reduction', shift', hr, hs, hreduction, hshift, rfl⟩
    · cases h
      exact Or.inl rfl
  · cases h
    exact Or.inl rfl

theorem stems_set {ts now : List Transition} (h : ∀ t ∈ now, Stems ts t) {i : Nat}
    {t : Transition} (ht : Stems ts t) : ∀ u ∈ now.set i t, Stems ts u := by
  intro u hu
  rcases List.mem_or_eq_of_mem_set hu with hu | rfl
  · exact h u hu
  · exact ht

theorem stems_lookAhead {v : Survey} {ts now : List Transition} {pairs : List (Nat × Nat)}
    {now' : List Transition} (h : ∀ t ∈ now, Stems ts t)
    (hnow : lookAheadTransitions v now = .ok (now', pairs)) : ∀ t ∈ now', Stems ts t := by
  refine foldlM_induction (fun m : List Transition × List (Nat × Nat) => ∀ t ∈ m.1, Stems ts t)
    (fun pair _ m m' hm hstep => ?_) h hnow
  obtain ⟨⟨next, changed⟩, hpair, hstep⟩ := bind_eq_ok.mp hstep
  cases hstep
  rcases lookAheadBoth_eq_ok hpair with rfl | ⟨t, u, t', u', ht, hu, ht', hu', rfl⟩
  · exact hm
  · exact stems_set (stems_set hm ((hm u (List.mem_of_getElem? hu)).of_lookInto hu'))
      ((hm t (List.mem_of_getElem? ht)).of_lookInto ht')

/-! ### A step of settling -/

section Settle

variable {v : Survey}

/-- The transition at `low` yields to the one at `high`: the two are in conflict, and the
rule of the one has a lower priority. -/
def GivesWay (v : Survey) (m : Ledger) (low high : Nat) (m' : Ledger) : Prop :=
  ∃ (lower higher : Transition) (p q : Int), m.transitions[low]? = some lower ∧
    m.transitions[high]? = some higher ∧ lower.conflictsWith higher = true ∧
      v.priority lower = .ok p ∧ v.priority higher = .ok q ∧ p < q ∧
        m' = m.yield v.grammar low lower higher

theorem settle_eq_ok {m m' : Ledger} {i j : Nat} (h : m.settle v i j = .ok m') :
    m' = m ∨ GivesWay v m i j m' ∨ GivesWay v m j i m' := by
  unfold Ledger.settle at h
  split at h
  · rename_i t u ht hu
    split at h
    · rename_i hconflict
      obtain ⟨p, hp, h⟩ := bind_eq_ok.mp h
      obtain ⟨q, hq, h⟩ := bind_eq_ok.mp h
      split at h
      · rename_i hlt
        cases h
        exact Or.inr (Or.inl ⟨t, u, p, q, ht, hu, hconflict, hp, hq, hlt, rfl⟩)
      · split at h
        · rename_i hlt
          cases h
          rw [Transition.conflictsWith_comm] at hconflict
          exact Or.inr (Or.inr ⟨u, t, q, p, hu, ht, hconflict, hq, hp, hlt, rfl⟩)
        · cases h
          exact Or.inl rfl
    · cases h
      exact Or.inl rfl
  · cases h
    exact Or.inl rfl

/-- A pair in conflict is settled whichever of the two comes first. -/
theorem settle_of_lt {m : Ledger} {low high : Nat} {lower higher : Transition} {p q : Int}
    (hlow : m.transitions[low]? = some lower) (hhigh : m.transitions[high]? = some higher)
    (hconflict : lower.conflictsWith higher = true) (hp : v.priority lower = .ok p)
    (hq : v.priority higher = .ok q) (hlt : p < q) :
    m.settle v low high = .ok (m.yield v.grammar low lower higher) ∧
      m.settle v high low = .ok (m.yield v.grammar low lower higher) := by
  have hconflict' : higher.conflictsWith lower = true := by
    rw [Transition.conflictsWith_comm]
    exact hconflict
  constructor
  · rw [Ledger.settle, hlow, hhigh]
    refine (if_pos hconflict).trans (bind_eq_ok.mpr ⟨p, hp, bind_eq_ok.mpr ⟨q, hq, ?_⟩⟩)
    exact if_pos hlt
  · rw [Ledger.settle, hlow, hhigh]
    refine (if_pos hconflict').trans (bind_eq_ok.mpr ⟨q, hq, bind_eq_ok.mpr ⟨p, hp, ?_⟩⟩)
    exact (if_neg (Int.lt_asymm hlt)).trans (if_pos hlt)

end Settle

theorem stems_givesWay {v : Survey} {ts : List Transition} {m m' : Ledger} {low high : Nat}
    (h : ∀ t ∈ m.transitions, Stems ts t) (hway : GivesWay v m low high m') :
    ∀ t ∈ m'.transitions, Stems ts t := by
  obtain ⟨lower, higher, _, _, hlow, _, _, _, _, _, rfl⟩ := hway
  have hlower := h lower (List.mem_of_getElem? hlow)
  exact stems_set h (hlower.withLookahead (Lookahead.size_without_le v.grammar hlower.2))

theorem stems_settlePair {v : Survey} {ts : List Transition} {m m' : Ledger} {i j : Nat}
    (h : ∀ t ∈ m.transitions, Stems ts t) (hm : m.settle v i j = .ok m') :
    ∀ t ∈ m'.transitions, Stems ts t := by
  rcases settle_eq_ok hm with rfl | hway | hway
  · exact h
  · exact stems_givesWay h hway
  · exact stems_givesWay h hway

theorem stems_settle {v : Survey} {ts now : List Transition}
    {verdicts : List (Transition × Transition)} {now' : List Transition}
    (h : ∀ t ∈ now, Stems ts t) (hnow : settleTransitions v now = .ok (now', verdicts)) :
    ∀ t ∈ now', Stems ts t := by
  obtain ⟨m, hm, hnow⟩ := bind_eq_ok.mp hnow
  cases hnow
  have hsettled : ∀ t ∈ m.transitions, Stems ts t :=
    foldlM_induction (fun m : Ledger => ∀ t ∈ m.transitions, Stems ts t)
      (fun pair _ m m' hm hstep => stems_settlePair hm hstep) h hm
  intro t ht
  obtain ⟨⟨t', i⟩, hkept, rfl⟩ := List.mem_map.mp ht
  have hget := List.mem_zipIdx_iff_getElem?.mp (List.mem_filter.mp hkept).1
  exact hsettled t' (List.mem_of_getElem? hget)

theorem stems_compact {ts now : List Transition} (h : ∀ t ∈ now, Stems ts t) :
    ∀ t ∈ compactTransitions now, Stems ts t := by
  intro t ht
  obtain ⟨t', ht', rfl⟩ := List.mem_map.mp ht
  split
  · exact (h t' ht').withLookahead (Nat.zero_le 1)
  · exact h t' ht'

/-- All five passes on the transitions of one state. -/
def Refined (v : Survey) (ts ts' : List Transition) : Prop :=
  ∃ (pruned ahead settled : List Transition) (pairs : List (Nat × Nat))
    (verdicts : List (Transition × Transition)), pruneTransitions v ts = .ok pruned ∧
    lookAheadTransitions v pruned = .ok (ahead, pairs) ∧
    settleTransitions v ahead = .ok (settled, verdicts) ∧
    ts' = compactTransitions (buryTransitions settled)

/-- Refinement makes no transitions of its own. -/
theorem refined_stem {v : Survey} {ts ts' : List Transition} (h : Refined v ts ts')
    (hsize : ∀ t ∈ ts, t.lookahead.size ≤ 1) : ∀ t ∈ ts', Stems ts t := by
  obtain ⟨pruned, ahead, settled, pairs, verdicts, hpruned, hahead, hsettled, rfl⟩ := h
  have hstart : ∀ t ∈ pruned, Stems ts t := fun t ht =>
    have ht := ((mem_of_retain hpruned).mp ht).1
    ⟨⟨t, ht, rfl⟩, hsize t ht⟩
  have hend := stems_settle (stems_lookAhead hstart hahead) hsettled
  exact stems_compact fun t ht => hend t (List.mem_filter.mp ht).1

end Refinement

namespace Automaton

/-! ## All states -/

/-- The states of the one are those of the other with their transitions changed. -/
def Reworked (R : List Transition → List Transition → Prop) (a b : Automaton) : Prop :=
  List.Forall₂ (fun s s' => s'.id = s.id ∧ s'.itemSet = s.itemSet ∧
    R s.transitions s'.transitions) a.states b.states

theorem Reworked.trans {R S T : List Transition → List Transition → Prop} {a b c : Automaton}
    (hab : Reworked R a b) (hbc : Reworked S b c) (h : ∀ ts us vs, R ts us → S us vs → T ts vs) :
    Reworked T a c := by
  unfold Reworked at *
  generalize a.states = xs at *
  generalize b.states = ys at *
  generalize c.states = zs at *
  induction hab generalizing zs with
  | nil =>
    cases hbc
    exact .nil
  | cons hxy _ ih =>
    cases hbc with
    | cons hyz hrest =>
      exact .cons ⟨hyz.1.trans hxy.1, hyz.2.1.trans hxy.2.1, h _ _ _ hxy.2.2 hyz.2.2⟩ (ih _ hrest)

theorem Reworked.at {R : List Transition → List Transition → Prop} {a b : Automaton}
    (h : Reworked R a b) {n : Nat} {s s' : State} (hs : a.states[n]? = some s)
    (hs' : b.states[n]? = some s') :
    s'.id = s.id ∧ s'.itemSet = s.itemSet ∧ R s.transitions s'.transitions := by
  obtain ⟨hn, rfl⟩ := List.getElem?_eq_some_iff.mp hs
  obtain ⟨hn', rfl⟩ := List.getElem?_eq_some_iff.mp hs'
  exact List.Forall₂.get h hn hn'

theorem Reworked.mono {R S : List Transition → List Transition → Prop} {a b : Automaton}
    (h : Reworked R a b) (himp : ∀ (n : Nat) (s : State) (ts' : List Transition),
      a.states[n]? = some s → R s.transitions ts' → S s.transitions ts') : Reworked S a b := by
  refine List.forall₂_iff_get.mpr ⟨List.Forall₂.length_eq h, fun n hn hn' => ?_⟩
  obtain ⟨hid, hset, hR⟩ := List.Forall₂.get h hn hn'
  exact ⟨hid, hset, himp n _ _ (List.getElem?_eq_getElem hn) hR⟩

theorem Reworked.exists_at {R : List Transition → List Transition → Prop} {a b : Automaton}
    (h : Reworked R a b) {n : Nat} {s : State} (hs : a.states[n]? = some s) :
    ∃ s', b.states[n]? = some s' := by
  have hn : n < b.states.length :=
    (List.Forall₂.length_eq h) ▸ (List.getElem?_eq_some_iff.mp hs).1
  exact ⟨_, List.getElem?_eq_getElem hn⟩

theorem Reworked.exists_before {R : List Transition → List Transition → Prop} {a b : Automaton}
    (h : Reworked R a b) {s' : State} (hs' : s' ∈ b.states) : ∃ (n : Nat) (s : State),
      a.states[n]? = some s ∧ s'.id = s.id ∧ R s.transitions s'.transitions := by
  obtain ⟨n, hn, rfl⟩ := List.mem_iff_getElem.mp hs'
  have hn' : n < a.states.length := (List.Forall₂.length_eq h).symm ▸ hn
  obtain ⟨hid, _, hR⟩ := List.Forall₂.get h hn' hn
  exact ⟨n, _, List.getElem?_eq_getElem hn', hid, hR⟩

theorem Reworked.exists_after {R : List Transition → List Transition → Prop} {a b : Automaton}
    (h : Reworked R a b) {s : State} (hs : s ∈ a.states) :
    ∃ s' ∈ b.states, R s.transitions s'.transitions := by
  obtain ⟨s', hs', _, _, hR⟩ := exists_mem_of_forall₂ h hs
  exact ⟨s', hs', hR⟩

/-- No item comes or goes. -/
theorem Reworked.belongsTo {R : List Transition → List Transition → Prop} {a b : Automaton}
    (h : Reworked R a b) {g : Grammar} (ha : a.BelongsTo g) : b.BelongsTo g := by
  intro s' hs'
  obtain ⟨s, hs, _, hset, _⟩ := exists_mem_of_forall₂ h.flip hs'
  exact hset ▸ ha s hs

theorem Reworked.size_eq {R : List Transition → List Transition → Prop} {a b : Automaton}
    (h : Reworked R a b) : b.size = a.size := (List.Forall₂.length_eq h).symm

theorem reworked_traverse {β : Type} {f : List Transition → Except Failure (List Transition × β)}
    {a b : Automaton} {notes : List (State × β)} (h : a.traverseTransitions f = .ok (b, notes)) :
    Reworked (fun ts ts' => ∃ note, f ts = .ok (ts', note)) a b := by
  obtain ⟨results, hresults, h⟩ := bind_eq_ok.mp h
  cases h
  refine List.forall₂_map_right_iff.mpr ((mapM_eq_ok.mp hresults).imp fun s result hs => ?_)
  obtain ⟨⟨ts, note⟩, hf, hs⟩ := bind_eq_ok.mp hs
  cases hs
  exact ⟨rfl, rfl, note, hf⟩

theorem reworked_map (f : List Transition → List Transition) (a : Automaton) :
    Reworked (fun ts ts' => ts' = f ts) a (a.mapTransitions f) := by
  unfold Reworked mapTransitions
  rw [List.forall₂_map_right_iff]
  exact List.forall₂_same.mpr fun s _ => ⟨rfl, rfl, rfl⟩

theorem reworked_prune {v : Survey} {a b : Automaton} (h : a.prune v = .ok b) :
    Reworked (fun ts ts' => Refinement.pruneTransitions v ts = .ok ts') a b := by
  rw [prune, rework_holding (Refinement.prune_eq v)] at h
  obtain ⟨⟨_, notes⟩, hprune, e⟩ := map_eq_ok.mp h
  cases e
  refine (reworked_traverse hprune).imp fun s s' ⟨hid, hset, _, hts⟩ => ⟨hid, hset, ?_⟩
  obtain ⟨pruned, hpruned, e⟩ := bind_eq_ok.mp hts
  cases e
  exact hpruned

theorem reworked_lookAhead {v : Survey} {a b : Automaton} {events : List Event}
    (h : a.lookAhead v = .ok (b, events)) :
    Reworked (fun ts ts' => ∃ pairs, Refinement.lookAheadTransitions v ts = .ok (ts', pairs))
      a b := by
  obtain ⟨⟨_, notes⟩, hlook, e⟩ := bind_eq_ok.mp h
  cases e
  rw [reworkStates_holding (Refinement.lookAhead_eq v)] at hlook
  exact reworked_traverse hlook

theorem reworked_settle {v : Survey} {a b : Automaton} {events : List Event}
    (h : a.settle v = .ok (b, events)) :
    Reworked (fun ts ts' => ∃ verdicts, Refinement.settleTransitions v ts = .ok (ts', verdicts))
      a b := by
  obtain ⟨⟨_, notes⟩, hsettle, e⟩ := bind_eq_ok.mp h
  cases e
  rw [reworkStates_holding (Refinement.settle_eq v)] at hsettle
  exact reworked_traverse hsettle

/-- The first two passes make the transitions of a state ready to be settled. -/
theorem reworked_ahead {v : Survey} {a pruned ahead : Automaton} {looks : List Event}
    (hpruned : a.prune v = .ok pruned) (hahead : pruned.lookAhead v = .ok (ahead, looks)) :
    Reworked (fun ts us => ∃ pruned pairs, Refinement.pruneTransitions v ts = .ok pruned ∧
      Refinement.lookAheadTransitions v pruned = .ok (us, pairs)) a ahead :=
  (reworked_prune hpruned).trans (reworked_lookAhead hahead)
    fun _ pruned _ hts ⟨pairs, hus⟩ => ⟨pruned, pairs, hts, hus⟩

/-- The last three passes settle them and clean up. -/
theorem reworked_behind {v : Survey} {ahead settled : Automaton} {verdicts : List Event}
    (h : ahead.settle v = .ok (settled, verdicts)) :
    Reworked (fun ts us => ∃ settled verdicts,
      Refinement.settleTransitions v ts = .ok (settled, verdicts) ∧
        us = Refinement.compactTransitions (Refinement.buryTransitions settled))
      ahead settled.cleaned := by
  have buried := (reworked_settle h).trans (reworked_map Refinement.buryTransitions settled)
    (T := fun ts us => ∃ settled verdicts,
      Refinement.settleTransitions v ts = .ok (settled, verdicts) ∧
        us = Refinement.buryTransitions settled)
    fun _ settled _ ⟨verdicts, hts⟩ e => ⟨settled, verdicts, hts, e⟩
  exact buried.trans (reworked_map Refinement.compactTransitions _)
    fun _ _ _ ⟨settled, verdicts, hts, e⟩ e' => ⟨settled, verdicts, hts, by rw [e', e]⟩

/-- Where a survey is made, what it says about follow sets can be reported. -/
theorem exists_followEvents_ok {g : Grammar} {a : Automaton} {v : Survey}
    (hv : Checked.survey g a = .ok v) : ∃ events, a.followEvents g = .ok events := by
  obtain ⟨follow, hfollow, _⟩ := bind_eq_ok.mp hv
  obtain ⟨followers, hfollowers, _⟩ := bind_eq_ok.mp hfollow
  exact ⟨_, bind_eq_ok.mpr ⟨followers, hfollowers, rfl⟩⟩

/-- Refinement answers where the passes do that ask something. -/
theorem refine_of_passes {g : Grammar} {v : Survey} {a pruned ahead settled : Automaton}
    {looks verdicts : List Event} (hv : Checked.survey g a = .ok v)
    (hpruned : a.prune v = .ok pruned) (hahead : pruned.lookAhead v = .ok (ahead, looks))
    (hsettled : ahead.settle v = .ok (settled, verdicts)) :
    ∃ events, a.refine g = .ok (settled.cleaned, events) := by
  obtain ⟨followed, hfollowed⟩ := exists_followEvents_ok hv
  exact ⟨_, bind_eq_ok.mpr ⟨v, hv, bind_eq_ok.mpr ⟨followed, hfollowed,
    bind_eq_ok.mpr ⟨pruned, hpruned, bind_eq_ok.mpr ⟨(ahead, looks), hahead,
      bind_eq_ok.mpr ⟨(settled, verdicts), hsettled, bind_eq_ok.mpr ⟨_, bury_eq settled,
        bind_eq_ok.mpr ⟨_, compact_eq _, rfl⟩⟩⟩⟩⟩⟩⟩⟩

/-- Refinement works on one state at a time and touches nothing but transitions. -/
theorem refine_eq_ok {g : Grammar} {a b : Automaton} {events : List Event}
    (h : a.refine g = .ok (b, events)) :
    ∃ v, Checked.survey g a = .ok v ∧ Reworked (Refinement.Refined v) a b := by
  obtain ⟨v, hv, h⟩ := bind_eq_ok.mp h
  obtain ⟨followed, _, h⟩ := bind_eq_ok.mp h
  obtain ⟨pruned, hpruned, h⟩ := bind_eq_ok.mp h
  obtain ⟨⟨ahead, looks⟩, hahead, h⟩ := bind_eq_ok.mp h
  obtain ⟨⟨settled, verdicts⟩, hsettled, h⟩ := bind_eq_ok.mp h
  obtain ⟨buried, hburied, h⟩ := bind_eq_ok.mp h
  obtain ⟨compact, hcompact, h⟩ := bind_eq_ok.mp h
  cases h
  cases (bury_eq settled).symm.trans hburied
  cases (compact_eq _).symm.trans hcompact
  exact ⟨v, hv, (reworked_ahead hpruned hahead).trans (reworked_behind hsettled)
    fun _ ahead _ ⟨pruned, pairs, hprune, hlook⟩ ⟨settled, verdicts, hsettle, e⟩ =>
      ⟨pruned, ahead, settled, pairs, verdicts, hprune, hlook, hsettle, e⟩⟩

/-- Of a well-formed grammar the survey that a refinement goes by is known. -/
theorem refined_of_refine {g : Grammar} (wf : g.WellFormed) {a b : Automaton} {events : List Event}
    (h : a.refine g = .ok (b, events)) : Reworked (Refinement.Refined (.make g a)) a b := by
  obtain ⟨v, hv, hrefined⟩ := refine_eq_ok h
  cases (Checked.survey_eq_ok wf a).symm.trans hv
  exact hrefined

end Automaton
end ShiftReduce
