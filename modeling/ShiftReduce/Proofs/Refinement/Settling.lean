/-
Settling by priority, one list of transitions at a time.

A step of settling touches one transition, the lower of a pair in conflict, and takes
input away from it: `settle_eq_ok` says that this is all a step does.  The order of the
steps matters for what is left of a transition, and a transition may be trimmed by one
that is doomed itself.  Three things hold in whatever order the pairs are visited:

  kept_of_foremost   where a transition has the highest priority of all that claim some
                     input, it keeps that input;
  not_lt_of_kept     of two rivals, which do different things on input that they share to
                     the end, neither has the higher priority;
  kept_of_bystander  what carries no lookahead takes no part.
-/
import ShiftReduce.Proofs.Refinement.Claims
import ShiftReduce.Proofs.Refinement.EqualPriority

namespace ShiftReduce

namespace Refinement

theorem mem_orderedPairs_of_ne {α : Type} {xs : List α} {x y : α} (hx : x ∈ xs) (hy : y ∈ xs)
    (h : x ≠ y) : (x, y) ∈ orderedPairs xs ∨ (y, x) ∈ orderedPairs xs := by
  induction xs with
  | nil => exact absurd hx List.not_mem_nil
  | cons z rest ih =>
    rw [orderedPairs, List.mem_append, List.mem_append, List.mem_map, List.mem_map]
    rcases List.mem_cons.mp hx with rfl | hx'
    · rcases List.mem_cons.mp hy with rfl | hy'
      · exact absurd rfl h
      · exact Or.inl (Or.inl ⟨y, hy', rfl⟩)
    · rcases List.mem_cons.mp hy with rfl | hy'
      · exact Or.inr (Or.inl ⟨x, hx', rfl⟩)
      · exact (ih hx' hy').imp Or.inr Or.inr

/-- Settling visits the positions of transitions that carry a lookahead. -/
theorem mem_positions {ts : List Transition} {i : Nat} :
    i ∈ positionsOf .reduce ts ++ positionsOf .shift ts ↔
      ∃ t, ts[i]? = some t ∧ t.move.carriesLookahead = true := by
  rw [List.mem_append, mem_positionsOf, mem_positionsOf]
  constructor
  · rintro (⟨t, ht, hkind⟩ | ⟨t, ht, hkind⟩)
    · exact ⟨t, ht, Transition.carriesLookahead_iff.mpr (Or.inl hkind)⟩
    · exact ⟨t, ht, Transition.carriesLookahead_iff.mpr (Or.inr hkind)⟩
  · rintro ⟨t, ht, hcarries⟩
    rcases Transition.carriesLookahead_iff.mp hcarries with hkind | hkind
    · exact Or.inl ⟨t, ht, hkind⟩
    · exact Or.inr ⟨t, ht, hkind⟩

variable {v : Survey}

theorem priority_of_edge {t u : Transition} (h : t.edge = u.edge) :
    v.priority t = v.priority u := by
  rw [Survey.priority, Survey.priority, Transition.origin_of_edge h]

theorem TouchedAll.mem_of_bystander {ts now : List Transition} (h : TouchedAll v ts now)
    {t : Transition} (ht : t ∈ ts) (hbystander : t.move.carriesLookahead = false) : t ∈ now := by
  obtain ⟨i, hi, rfl⟩ := List.mem_iff_getElem.mp ht
  have hi' : i < now.length := List.Forall₂.length_eq h ▸ hi
  have htouched : Touched v ts[i] now[i] := List.Forall₂.get h hi hi'
  have hsame : now[i] = ts[i] := by
    rcases htouched with e | hlook
    · exact e
    · rw [Survey.lookInto_other hbystander] at hlook
      exact (Except.ok.inj hlook).symm
  exact hsame ▸ List.getElem_mem hi'

/-! ## What a step does -/

theorem yield_of_ne {g : Grammar} {m : Ledger} {low i : Nat} {lower higher : Transition}
    (h : low ≠ i) : (m.yield g low lower higher).transitions[i]? = m.transitions[i]? ∧
      (i ∈ (m.yield g low lower higher).doomed ↔ i ∈ m.doomed) := by
  refine ⟨List.getElem?_set_ne h, ?_⟩
  simp only [Ledger.yield]
  split
  · rw [mem_addPosition, or_iff_right fun e => h e.symm]
  · exact Iff.rfl

theorem yield_self {g : Grammar} {m : Ledger} {low : Nat} {lower higher t : Transition}
    (h : m.transitions[low]? = some t) : (m.yield g low lower higher).transitions[low]? =
      some (lower.withLookahead (lower.lookahead.without g higher.lookahead)) :=
  List.getElem?_set_self (List.getElem?_eq_some_iff.mp h).1

/-! ## What is left of a transition -/

/-- Some of the input of a transition was taken away. -/
structure Trimmed (g : Grammar) (t t' : Transition) : Prop where
  edge_eq : t'.edge = t.edge
  simple : t.lookahead.Simple g → t'.lookahead.Simple g
  allows : t.lookahead.Simple g → ∀ u, t'.lookahead.Allows u → t.lookahead.Allows u

theorem Trimmed.refl (g : Grammar) (t : Transition) : Trimmed g t t :=
  ⟨rfl, id, fun _ _ => id⟩

theorem Trimmed.trans {g : Grammar} {t u w : Transition} (h : Trimmed g t u)
    (h' : Trimmed g u w) : Trimmed g t w where
  edge_eq := h'.edge_eq.trans h.edge_eq
  simple hs := h'.simple (h.simple hs)
  allows hs x hx := h.allows hs x (h'.allows (h.simple hs) x hx)

theorem Trimmed.appliesAt {g : Grammar} {t t' : Transition} (h : Trimmed g t t')
    (hs : t.lookahead.Simple g) {u : SymbolId} (happlies : t'.AppliesAt u) : t.AppliesAt u :=
  ⟨Transition.carriesLookahead_of_edge h.edge_eq ▸ happlies.1, h.allows hs u happlies.2⟩

theorem Trimmed.rivals {g : Grammar} {t t' u u' : Transition} (ht : Trimmed g t t')
    (hu : Trimmed g u u') (hs : t.lookahead.Simple g) (hs' : u.lookahead.Simple g) {x : SymbolId}
    (h : Transition.Rivals x t' u') : Transition.Rivals x t u where
  state := by
    rw [← Transition.origin_of_edge ht.edge_eq, ← Transition.origin_of_edge hu.edge_eq]
    exact h.state
  symbol := by
    rw [← Transition.symbol_of_edge ht.edge_eq, ← Transition.symbol_of_edge hu.edge_eq]
    exact h.symbol
  outcome := by
    rw [← Transition.sameOutcome_of_edge ht.edge_eq hu.edge_eq]
    exact h.outcome
  left := ht.appliesAt hs h.left
  right := hu.appliesAt hs' h.right

theorem trimmed_without {g : Grammar} (wf : g.WellFormed) (t : Transition) (l : Lookahead) :
    Trimmed g t (t.withLookahead (t.lookahead.without g l)) := by
  cases hcarries : t.move.carriesLookahead with
  | false =>
    rw [Transition.withLookahead_of_bystander hcarries]
    exact .refl g t
  | true =>
    refine ⟨t.edge_withLookahead _, fun hs => ?_, fun hs u hu => ?_⟩
    · rw [Transition.lookahead_withLookahead_of_carries hcarries]
      exact hs.without wf l
    · rw [Transition.lookahead_withLookahead_of_carries hcarries] at hu
      exact Lookahead.allows_of_without hs hu

/-- One state of settling comes after another: transitions were trimmed, and what was
doomed is doomed. -/
structure After (g : Grammar) (m m' : Ledger) : Prop where
  trimmed : ∀ (i : Nat) (t' : Transition), m'.transitions[i]? = some t' →
    ∃ t, m.transitions[i]? = some t ∧ Trimmed g t t'
  doomed : ∀ i ∈ m.doomed, i ∈ m'.doomed

theorem After.refl (g : Grammar) (m : Ledger) : After g m m :=
  ⟨fun _ t ht => ⟨t, ht, .refl g t⟩, fun _ => id⟩

theorem After.trans {g : Grammar} {m₁ m₂ m₃ : Ledger} (h : After g m₁ m₂)
    (h' : After g m₂ m₃) : After g m₁ m₃ where
  trimmed i t₃ ht₃ := by
    obtain ⟨t₂, ht₂, htrim⟩ := h'.trimmed i t₃ ht₃
    obtain ⟨t₁, ht₁, htrim'⟩ := h.trimmed i t₂ ht₂
    exact ⟨t₁, ht₁, htrim'.trans htrim⟩
  doomed i hi := h'.doomed i (h.doomed i hi)

section Run

variable (wf : v.grammar.WellFormed)

include wf

theorem GivesWay.after {m m' : Ledger} {low high : Nat} (h : GivesWay v m low high m') :
    After v.grammar m m' := by
  obtain ⟨lower, higher, p, q, hlow, _, _, _, _, _, rfl⟩ := h
  refine ⟨fun i t' ht' => ?_, fun i hi => ?_⟩
  · by_cases hi : low = i
    · subst hi
      rw [yield_self hlow] at ht'
      cases ht'
      exact ⟨lower, hlow, trimmed_without wf lower _⟩
    · rw [(yield_of_ne hi).1] at ht'
      exact ⟨t', ht', .refl _ t'⟩
  · simp only [Ledger.yield]
    split
    · exact mem_addPosition.mpr (Or.inr hi)
    · exact hi

theorem after_settle {m m' : Ledger} {i j : Nat} (h : m.settle v i j = .ok m') :
    After v.grammar m m' := by
  rcases settle_eq_ok h with rfl | h | h
  · exact .refl _ m'
  · exact h.after wf
  · exact h.after wf

theorem after_settleAll {pairs : List (Nat × Nat)} {m m' : Ledger}
    (h : pairs.foldlM (fun m pair => Ledger.settle v m pair.1 pair.2) m = .ok m') :
    After v.grammar m m' :=
  foldlM_induction (After v.grammar m) (fun _ _ _ _ hb hc => hb.trans (after_settle wf hc))
    (.refl _ m) h

/-- The pair of two positions is visited, in one order or the other. -/
theorem exists_visit {ts : List Transition} {m : Ledger}
    (hm : (settlingOrder ts).foldlM (fun m pair => Ledger.settle v m pair.1 pair.2)
      ⟨ts, [], []⟩ = .ok m) {i j : Nat} {t u : Transition} (ht : m.transitions[i]? = some t)
    (hu : m.transitions[j]? = some u) (hcarries : t.move.carriesLookahead = true)
    (hcarries' : u.move.carriesLookahead = true) (hne : i ≠ j) : ∃ m₁ m₂ : Ledger,
      After v.grammar ⟨ts, [], []⟩ m₁ ∧
        (m₁.settle v i j = .ok m₂ ∨ m₁.settle v j i = .ok m₂) ∧ After v.grammar m₂ m := by
  have hpositions : ∀ (i : Nat) (w : Transition), m.transitions[i]? = some w →
      w.move.carriesLookahead = true → i ∈ positionsOf .reduce ts ++ positionsOf .shift ts := by
    intro i w hw hcarries
    obtain ⟨w₀, hw₀, htrim⟩ := (after_settleAll wf hm).trimmed i w hw
    rw [Transition.carriesLookahead_of_edge htrim.edge_eq] at hcarries
    exact mem_positions.mpr ⟨w₀, hw₀, hcarries⟩
  rcases mem_orderedPairs_of_ne (hpositions i t ht hcarries) (hpositions j u hu hcarries') hne with
    hpair | hpair
  · obtain ⟨_, _, m₁, m₂, _, hpre, hstep, hpost⟩ := foldlM_visits hpair hm
    exact ⟨m₁, m₂, after_settleAll wf hpre, Or.inl hstep, after_settleAll wf hpost⟩
  · obtain ⟨_, _, m₁, m₂, _, hpre, hstep, hpost⟩ := foldlM_visits hpair hm
    exact ⟨m₁, m₂, after_settleAll wf hpre, Or.inr hstep, after_settleAll wf hpost⟩

omit wf in
/-- Settling drops what is doomed when all pairs were visited, and nothing else. -/
theorem settleTransitions_eq_ok {ts kept : List Transition}
    {verdicts : List (Transition × Transition)}
    (h : settleTransitions v ts = .ok (kept, verdicts)) : ∃ m : Ledger,
      (settlingOrder ts).foldlM (fun m pair => Ledger.settle v m pair.1 pair.2) ⟨ts, [], []⟩ =
          .ok m ∧
        ∀ t, t ∈ kept ↔ ∃ i, m.transitions[i]? = some t ∧ i ∉ m.doomed := by
  obtain ⟨m, hm, h⟩ := bind_eq_ok.mp h
  cases h
  refine ⟨m, hm, fun t => ?_⟩
  rw [List.mem_map]
  constructor
  · rintro ⟨⟨t, i⟩, hmem, rfl⟩
    obtain ⟨hmem, hkeep⟩ := List.mem_filter.mp hmem
    refine ⟨i, List.mem_zipIdx_iff_getElem?.mp hmem, fun hi => ?_⟩
    rw [List.contains_iff_mem.mpr hi] at hkeep
    cases hkeep
  · rintro ⟨i, ht, hi⟩
    refine ⟨(t, i), List.mem_filter.mpr ⟨List.mem_zipIdx_iff_getElem?.mpr ht, ?_⟩, rfl⟩
    rw [Bool.eq_false_iff.mpr fun hc => hi (List.contains_iff_mem.mp hc)]
    rfl

/-! ## Who keeps what -/

/-- What is kept is a transition from before with some of its input taken away. -/
theorem trimmed_of_kept {ts kept : List Transition} {verdicts : List (Transition × Transition)}
    (h : settleTransitions v ts = .ok (kept, verdicts)) {t' : Transition} (ht' : t' ∈ kept) :
    ∃ t ∈ ts, Trimmed v.grammar t t' := by
  obtain ⟨m, hm, hkept⟩ := settleTransitions_eq_ok h
  obtain ⟨i, hi, _⟩ := (hkept t').mp ht'
  obtain ⟨t, ht, htrim⟩ := (after_settleAll wf hm).trimmed i t' hi
  exact ⟨t, List.mem_of_getElem? ht, htrim⟩

omit wf in
theorem kept_of_bystander {ts kept : List Transition} {verdicts : List (Transition × Transition)}
    (h : settleTransitions v ts = .ok (kept, verdicts)) {t : Transition} (ht : t ∈ ts)
    (hbystander : t.move.carriesLookahead = false) : t ∈ kept := by
  obtain ⟨m, hm, hkept⟩ := settleTransitions_eq_ok h
  obtain ⟨i, hi⟩ := List.mem_iff_getElem?.mp ht
  have hother : ∀ low ∈ positionsOf .reduce ts ++ positionsOf .shift ts, low ≠ i := by
    rintro low hlow rfl
    obtain ⟨t', ht', hcarries⟩ := mem_positions.mp hlow
    rw [hi] at ht'
    cases ht'
    rw [hbystander] at hcarries
    cases hcarries
  -- no step is about this position
  have step : ∀ (m m' : Ledger) (low high : Nat), low ≠ i → GivesWay v m low high m' →
      m.transitions[i]? = some t ∧ i ∉ m.doomed → m'.transitions[i]? = some t ∧ i ∉ m'.doomed := by
    rintro m _ low high hne ⟨lower, higher, _, _, _, _, _, _, _, _, rfl⟩ ⟨ht, hdoomed⟩
    obtain ⟨hsame, hsame'⟩ := yield_of_ne hne
    exact ⟨hsame.trans ht, fun hmem => hdoomed (hsame'.mp hmem)⟩
  refine (hkept t).mpr ⟨i, foldlM_induction
    (fun m : Ledger => m.transitions[i]? = some t ∧ i ∉ m.doomed)
    (fun pair hpair m m' hP hstep => ?_) ⟨hi, List.not_mem_nil⟩ hm⟩
  obtain ⟨hfst, hsnd⟩ := mem_of_mem_orderedPairs hpair
  rcases settle_eq_ok hstep with rfl | hway | hway
  · exact hP
  · exact step m m' _ _ (hother _ hfst) hway hP
  · exact step m m' _ _ (hother _ hsnd) hway hP

/-- The transition applies at an input symbol, and of all on its symbol that do none has
a higher priority. -/
def Foremost (v : Survey) (ts : List Transition) (u : SymbolId) (t : Transition) : Prop :=
  t ∈ ts ∧ t.AppliesAt u ∧ ∃ p, v.priority t = .ok p ∧
    ∀ t' ∈ ts, t'.symbol = t.symbol → t'.AppliesAt u → ∃ q, v.priority t' = .ok q ∧ q ≤ p

/-- At this position is still the edge of a transition, not doomed, and applies at the
input symbol. -/
def Ledger.Keeps (m : Ledger) (i : Nat) (t : Transition) (u : SymbolId) : Prop :=
  ∃ t', m.transitions[i]? = some t' ∧ i ∉ m.doomed ∧ t'.edge = t.edge ∧ t'.AppliesAt u

/-- To yield to what does not apply at an input symbol costs nothing there. -/
theorem Ledger.Keeps.yield {m : Ledger} {low : Nat} {t lower higher : Transition}
    {u : SymbolId} (h : m.Keeps low t u) (hlow : m.transitions[low]? = some lower)
    (hsimple : lower.lookahead.Simple v.grammar) (hsimple' : higher.lookahead.Simple v.grammar)
    (hu : v.grammar.isTerminal u = true) (hnot : ¬ higher.lookahead.Allows u) :
    (m.yield v.grammar low lower higher).Keeps low t u := by
  obtain ⟨t', ht', hdoomed, hedge, hcarries, hallows⟩ := h
  rw [hlow] at ht'
  cases ht'
  have hclaims : higher.lookahead ≠ .any := by
    intro e
    rw [e] at hnot
    exact hnot (Lookahead.allows_any u)
  refine ⟨_, yield_self hlow, ?_, (lower.edge_withLookahead _).trans hedge, ?_, ?_⟩
  · have hno : (lower.withLookahead (lower.lookahead.without v.grammar
        higher.lookahead)).conflictsWith higher = false := by
      rw [Bool.eq_false_iff, Ne, Transition.conflictsWith_iff]
      rintro ⟨_, _, hmeet, _⟩
      rw [Transition.lookahead_withLookahead_of_carries hcarries,
        Lookahead.disjoint_without _ _ hclaims] at hmeet
      cases hmeet
    simp only [Ledger.yield, hno]
    exact hdoomed
  · rw [Transition.carriesLookahead_of_edge (lower.edge_withLookahead _)]
    exact hcarries
  · rw [Transition.lookahead_withLookahead_of_carries hcarries,
      Lookahead.allows_without wf hsimple hsimple' hu]
    exact ⟨hallows, Or.inr hnot⟩

omit wf in
theorem doomed_of_yield {m : Ledger} {low : Nat} {lower higher : Transition}
    (h : (lower.withLookahead (lower.lookahead.without v.grammar higher.lookahead)).conflictsWith
      higher = true) : low ∈ (m.yield v.grammar low lower higher).doomed := by
  simp only [Ledger.yield, h, if_true]
  exact mem_addPosition.mpr (Or.inl rfl)

variable {ts : List Transition} (simple : ∀ t ∈ ts, t.lookahead.Simple v.grammar)

include simple

omit wf in
theorem After.simple_lookahead {m : Ledger} (h : After v.grammar ⟨ts, [], []⟩ m) {i : Nat}
    {t : Transition} (ht : m.transitions[i]? = some t) : t.lookahead.Simple v.grammar := by
  obtain ⟨t₀, ht₀, htrim⟩ := h.trimmed i t ht
  exact htrim.simple (simple t₀ (List.mem_of_getElem? ht₀))

/-- What is foremost at an input symbol yields to nothing that applies there. -/
theorem GivesWay.keeps {m m' : Ledger} {low high i : Nat} (h : GivesWay v m low high m')
    (hafter : After v.grammar ⟨ts, [], []⟩ m)
    (hhigh : high ∈ positionsOf .reduce ts ++ positionsOf .shift ts) {u : SymbolId}
    (hu : v.grammar.isTerminal u = true) {t : Transition} (ht : Foremost v ts u t)
    (hkeeps : m.Keeps i t u) : m'.Keeps i t u := by
  obtain ⟨lower, higher, q, q', hlow, hhigher, hconflict, hq, hq', hlt, rfl⟩ := h
  by_cases hi : low = i
  · subst hi
    refine hkeeps.yield wf hlow (hafter.simple_lookahead simple hlow)
      (hafter.simple_lookahead simple hhigher) hu fun hallows => ?_
    -- otherwise the higher one applied from the beginning, and is not higher
    obtain ⟨t', ht', _, hedge, _⟩ := hkeeps
    rw [hlow] at ht'
    cases ht'
    obtain ⟨u₀, hu₀, htrim⟩ := hafter.trimmed high higher hhigher
    obtain ⟨_, hsymbol, _, _⟩ := Transition.conflictsWith_iff.mp hconflict
    have hsymbol' : u₀.symbol = t.symbol := by
      rw [← Transition.symbol_of_edge htrim.edge_eq, ← hsymbol, Transition.symbol_of_edge hedge]
    obtain ⟨u₁, hu₁, hcarries⟩ := mem_positions.mp hhigh
    have hu₀ : ts[high]? = some u₀ := hu₀
    rw [hu₀] at hu₁
    cases hu₁
    obtain ⟨_, _, p, hp, hmax⟩ := ht
    obtain ⟨r, hr, hle⟩ := hmax u₀ (List.mem_of_getElem? hu₀) hsymbol'
      ⟨hcarries, htrim.allows (simple u₀ (List.mem_of_getElem? hu₀)) u hallows⟩
    rw [← priority_of_edge htrim.edge_eq, hq'] at hr
    rw [priority_of_edge hedge, hp] at hq
    cases hr
    cases hq
    exact absurd hlt (Int.not_lt.mpr hle)
  · obtain ⟨hsame, hsame'⟩ := yield_of_ne hi
    obtain ⟨t', ht', hdoomed, hrest⟩ := hkeeps
    exact ⟨t', hsame.trans ht', fun hmem => hdoomed (hsame'.mp hmem), hrest⟩

variable {kept : List Transition} {verdicts : List (Transition × Transition)}
  (h : settleTransitions v ts = .ok (kept, verdicts))

include h

/-- Where a transition is foremost, it still applies when all is settled. -/
theorem kept_of_foremost {u : SymbolId} (hu : v.grammar.isTerminal u = true) {t : Transition}
    (ht : Foremost v ts u t) : ∃ t' ∈ kept, t'.edge = t.edge ∧ t'.AppliesAt u := by
  obtain ⟨m, hm, hkept⟩ := settleTransitions_eq_ok h
  obtain ⟨i, hi⟩ := List.mem_iff_getElem?.mp ht.1
  have hkeeps : After v.grammar ⟨ts, [], []⟩ m ∧ m.Keeps i t u := by
    refine foldlM_induction (fun m => After v.grammar ⟨ts, [], []⟩ m ∧ m.Keeps i t u)
      (fun pair hpair m m' hP hstep => ⟨hP.1.trans (after_settle wf hstep), ?_⟩)
      ⟨.refl _ _, t, hi, List.not_mem_nil, rfl, ht.2.1⟩ hm
    obtain ⟨hfst, hsnd⟩ := mem_of_mem_orderedPairs hpair
    rcases settle_eq_ok hstep with rfl | hway | hway
    · exact hP.2
    · exact hway.keeps wf simple hP.1 hsnd hu ht hP.2
    · exact hway.keeps wf simple hP.1 hfst hu ht hP.2
  obtain ⟨_, t', ht', hdoomed, hrest⟩ := hkeeps
  exact ⟨t', (hkept t').mpr ⟨i, ht', hdoomed⟩, hrest⟩

/-- Of two rivals that are kept neither has the higher priority: when the pair was visited
the lower one gave that input up, or was doomed. -/
theorem not_lt_of_kept {t' u' : Transition} (ht' : t' ∈ kept) (hu' : u' ∈ kept) {x : SymbolId}
    (rivals : Transition.Rivals x t' u') {p q : Int} (hp : v.priority t' = .ok p)
    (hq : v.priority u' = .ok q) : ¬ p < q := by
  intro hlt
  obtain ⟨m, hm, hkept⟩ := settleTransitions_eq_ok h
  obtain ⟨low, hlow, halive⟩ := (hkept t').mp ht'
  obtain ⟨high, hhigh, _⟩ := (hkept u').mp hu'
  have hne : low ≠ high := by
    rintro rfl
    rw [hlow] at hhigh
    cases hhigh
    have hself := rivals.outcome
    rw [Transition.sameOutcome_refl] at hself
    cases hself
  obtain ⟨m₁, m₂, hbefore, hstep, hafter⟩ :=
    exists_visit wf hm hlow hhigh rivals.left.1 rivals.right.1 hne
  have hmiddle : After v.grammar m₁ m₂ := hstep.elim (after_settle wf) (after_settle wf)
  obtain ⟨t₁, ht₁, htrim⟩ := (hmiddle.trans hafter).trimmed low t' hlow
  obtain ⟨u₁, hu₁, htrim'⟩ := (hmiddle.trans hafter).trimmed high u' hhigh
  have hsimple := hbefore.simple_lookahead simple ht₁
  have hsimple' := hbefore.simple_lookahead simple hu₁
  -- they were rivals then, so the lower one yielded
  have hyield : m₂ = m₁.yield v.grammar low t₁ u₁ := by
    rw [priority_of_edge htrim.edge_eq] at hp
    rw [priority_of_edge htrim'.edge_eq] at hq
    obtain ⟨hfst, hsnd⟩ := settle_of_lt ht₁ hu₁
      (htrim.rivals htrim' hsimple hsimple' rivals).conflictsWith hp hq hlt
    rcases hstep with hstep | hstep
    · exact Except.ok.inj (hstep.symm.trans hfst)
    · exact Except.ok.inj (hstep.symm.trans hsnd)
  subst hyield
  -- and they were rivals even after that
  obtain ⟨t₂, ht₂, htrim₂⟩ := hafter.trimmed low t' hlow
  rw [yield_self ht₁] at ht₂
  cases ht₂
  have hsimple₂ := (trimmed_without wf t₁ u₁.lookahead).simple hsimple
  exact halive (hafter.doomed low
    (doomed_of_yield (htrim₂.rivals htrim' hsimple₂ hsimple' rivals).conflictsWith))

end Run

/-- What carries no lookahead takes no part in settling and cleaning up. -/
theorem left_of_bystander {ts kept : List Transition} {verdicts : List (Transition × Transition)}
    (h : settleTransitions v ts = .ok (kept, verdicts)) {t : Transition} (ht : t ∈ ts)
    (hbystander : t.move.carriesLookahead = false) :
    t ∈ compactTransitions (buryTransitions kept) := by
  have hkept := kept_of_bystander h ht hbystander
  have hany := Transition.lookahead_of_bystander hbystander
  refine List.mem_map.mpr ⟨t, List.mem_filter.mpr ⟨hkept, ?_⟩, ?_⟩
  · rw [hany]
    rfl
  · rw [Transition.withLookahead_of_bystander hbystander, ite_self]

/-- What carries no lookahead takes no part in any pass of a refinement. -/
theorem mem_refined_of_bystander {ts ts' : List Transition} (h : Refined v ts ts')
    {t : Transition} (ht : t ∈ ts) (hbystander : t.move.carriesLookahead = false) : t ∈ ts' := by
  obtain ⟨pruned, ahead, settled, pairs, verdicts, hpruned, hahead, hsettled, rfl⟩ := h
  have hlive : isLive v t = .ok true := by
    unfold isLive
    cases hm : t.move with
    | reduce l =>
      rw [hm] at hbystander
      cases hbystander
    | shift target l => rfl
    | goto target => rfl
    | accept => rfl
  have hkept : t ∈ pruned := (mem_of_retain hpruned).mpr ⟨ht, hlive⟩
  have hlooked : t ∈ ahead := (touchedAll_lookAhead hahead).mem_of_bystander hkept hbystander
  exact left_of_bystander hsettled hlooked hbystander

end Refinement
end ShiftReduce
