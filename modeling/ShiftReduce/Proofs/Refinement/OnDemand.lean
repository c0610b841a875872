/-
Looking ahead on demand.

The pass that looks ahead goes through the pairs of a reduction and a shift, and computes the
lookaheads of a pair only if the two are in conflict as they are when their turn comes.  Earlier
pairs may have put a lookahead on one of them by then.  Still the outcome does not depend on
the pairs: wherever a state has a shift and a reduction on one symbol, each shift and each
reduction on that symbol ends up with the lookahead that its origin calls for, and nothing else
is touched (`lookAhead_declared`).

That is so because a lookahead that was computed is never computed differently later, and
because a pair that is not in conflict at its turn has both its lookaheads already: without a
lookahead a transition allows everything, and is in conflict with whatever does something else
on its symbol.
-/
import ShiftReduce.Proofs.Automaton.Bare
import ShiftReduce.Proofs.Refinement.Answers

namespace ShiftReduce
namespace Refinement

/-- Some shift and some reduction are on the symbol. -/
def Contested (ts : List Transition) (x : SymbolId) : Prop :=
  (∃ t ∈ ts, t.kind = .shift ∧ t.symbol = x) ∧ ∃ t ∈ ts, t.kind = .reduce ∧ t.symbol = x

/-- The transition is a shift or a reduction on such a symbol. -/
def Disputed (ts : List Transition) (t : Transition) : Prop :=
  (t.kind = .shift ∨ t.kind = .reduce) ∧ Contested ts t.symbol

variable {v : Survey} {ts now next : List Transition} {r s : Nat} {changed : Bool}

/-! ## The visit of a pair -/

theorem getElem?_set_cases {α : Type} {xs : List α} {i j : Nat} {x y : α}
    (h : (xs.set j y)[i]? = some x) : i = j ∧ x = y ∨ i ≠ j ∧ xs[i]? = some x := by
  by_cases e : i = j
  · subst e
    have hi : i < (xs.set i y).length := (List.getElem?_eq_some_iff.mp h).1
    rw [List.length_set] at hi
    rw [List.getElem?_set_self hi] at h
    exact Or.inl ⟨rfl, (Option.some.inj h).symm⟩
  · rw [List.getElem?_set_ne (Ne.symm e)] at h
    exact Or.inr ⟨e, h⟩

theorem lookAheadBoth_cases {reduction shift : Transition} (hr : now[r]? = some reduction)
    (hs : now[s]? = some shift) (h : lookAheadBoth v now r s = .ok (next, changed)) :
    reduction.conflictsWith shift = false ∧ next = now ∨
      reduction.conflictsWith shift = true ∧ ∃ reduction' shift' : Transition,
        v.lookInto reduction = .ok reduction' ∧ v.lookInto shift = .ok shift' ∧
          next = (now.set s shift').set r reduction' := by
  rw [lookAheadBoth, hr, hs] at h
  simp only at h
  split at h
  · rename_i hconflict
    obtain ⟨shift', hshift, h⟩ := bind_eq_ok.mp h
    obtain ⟨reduction', hreduction, h⟩ := bind_eq_ok.mp h
    cases h
    exact Or.inr ⟨hconflict, reduction', shift', hreduction, hshift, rfl⟩
  · rename_i hno
    cases h
    exact Or.inl ⟨Bool.eq_false_iff.mpr hno, rfl⟩

/-- Without a lookahead a reduction and a shift on one symbol are in conflict. -/
theorem conflictsWith_of_any {reduction shift : Transition} (hreduce : reduction.kind = .reduce)
    (hshift : shift.kind = .shift) (hstate : reduction.origin.state = shift.origin.state)
    (hsymbol : reduction.symbol = shift.symbol)
    (hany : reduction.lookahead = .any ∨ shift.lookahead = .any) :
    reduction.conflictsWith shift = true := by
  have hdisjoint : reduction.lookahead.disjoint shift.lookahead = false := by
    rcases hany with h | h
    · rw [h]
      rfl
    · rw [h, Lookahead.disjoint_comm]
      rfl
  have houtcome : reduction.sameOutcome shift = false := by
    refine Transition.sameOutcome_of_kind_ne ?_
    rw [hreduce, hshift]
    decide
  exact Transition.conflictsWith_iff.mpr ⟨hstate, hsymbol, hdisjoint, houtcome⟩

/-- Some of the disputed transitions have been looked into, and none of the others. -/
def Partly (v : Survey) (ts now : List Transition) : Prop :=
  List.Forall₂ (fun t u => u = t ∨ Disputed ts t ∧ v.lookInto t = .ok u) ts now

/-- The transition at this position has been looked into. -/
def Done (v : Survey) (ts now : List Transition) (i : Nat) : Prop :=
  ∀ t u, ts[i]? = some t → now[i]? = some u → v.lookInto t = .ok u

theorem done_of_getElem? {i : Nat} {t u : Transition} (ht : ts[i]? = some t)
    (hu : now[i]? = some u) (h : v.lookInto t = .ok u) : Done v ts now i := by
  intro t' u' ht' hu'
  rw [ht] at ht'
  rw [hu] at hu'
  cases ht'
  cases hu'
  exact h

theorem Done.set {i j : Nat} {t t' : Transition} (hj : ts[j]? = some t)
    (ht' : v.lookInto t = .ok t') (h : i = j ∨ Done v ts now i) : Done v ts (now.set j t') i := by
  intro u w hu hw
  rcases getElem?_set_cases hw with ⟨rfl, rfl⟩ | ⟨hne, hw⟩
  · rw [hj] at hu
    cases hu
    exact ht'
  · exact h.resolve_left hne u w hu hw

theorem Partly.refl (v : Survey) (ts : List Transition) : Partly v ts ts :=
  List.forall₂_same.mpr fun _ _ => Or.inl rfl

theorem Partly.exists_touched (h : Partly v ts now) {i : Nat} {t : Transition}
    (ht : ts[i]? = some t) : ∃ u, now[i]? = some u ∧ Touched v t u := by
  obtain ⟨u, hu, htu⟩ := exists_getElem?_of_forall₂ h ht
  exact ⟨u, hu, htu.imp_right And.right⟩

section Visit

variable {reduction shift : Transition} (hpartly : Partly v ts now)
  (hr : ts[r]? = some reduction) (hs : ts[s]? = some shift)
  (h : lookAheadBoth v now r s = .ok (next, changed))

include hpartly hr hs h

/-- A visit leaves everything alone or looks into both members of the pair, which are on one
symbol then. -/
theorem visit_cases : next = now ∨ reduction.symbol = shift.symbol ∧
    ∃ reduction' shift' : Transition, v.lookInto reduction = .ok reduction' ∧
      v.lookInto shift = .ok shift' ∧ next = (now.set s shift').set r reduction' := by
  obtain ⟨reduction₁, hr₁, htr⟩ := hpartly.exists_touched hr
  obtain ⟨shift₁, hs₁, hts⟩ := hpartly.exists_touched hs
  rcases lookAheadBoth_cases hr₁ hs₁ h with
    ⟨_, hsame⟩ | ⟨hconflict, reduction', shift', hr', hs', e⟩
  · exact Or.inl hsame
  · obtain ⟨_, hsymbol, _⟩ := Transition.conflictsWith_iff.mp hconflict
    rw [Transition.symbol_of_edge htr.edge_eq, Transition.symbol_of_edge hts.edge_eq] at hsymbol
    exact Or.inr ⟨hsymbol, reduction', shift', htr.again hr', hts.again hs', e⟩

/-- What has been looked into stays as it is: looking into it again changes nothing. -/
theorem done_of_done {i : Nat} (hdone : Done v ts now i) : Done v ts next i := by
  rcases visit_cases hpartly hr hs h with rfl | ⟨_, reduction', shift', hr', hs', rfl⟩
  · exact hdone
  · exact .set hr hr' (Or.inr (.set hs hs' (Or.inr hdone)))

variable (hreduce : reduction.kind = .reduce) (hshift : shift.kind = .shift)

include hreduce hshift

/-- Only disputed transitions are looked into. -/
theorem partly_of_visit : Partly v ts next := by
  rcases visit_cases hpartly hr hs h with rfl | ⟨hsymbol, reduction', shift', hr', hs', rfl⟩
  · exact hpartly
  · have hcontested : Contested ts reduction.symbol :=
      ⟨⟨shift, List.mem_of_getElem? hs, hshift, hsymbol.symm⟩,
        reduction, List.mem_of_getElem? hr, hreduce, rfl⟩
    have hset : Partly v ts (now.set s shift') := by
      refine forall₂_set_right hpartly fun t ht => Or.inr ?_
      rw [hs] at ht
      cases ht
      exact ⟨⟨Or.inl hshift, hsymbol ▸ hcontested⟩, hs'⟩
    refine forall₂_set_right hset fun t ht => Or.inr ?_
    rw [hr] at ht
    cases ht
    exact ⟨⟨Or.inr hreduce, hcontested⟩, hr'⟩

/-- After the visit of a reduction and a shift on one symbol both have been looked into, by now
or before: as long as one of them has no lookahead, the two are in conflict. -/
theorem done_of_visit (hany : ∀ t ∈ ts, t.lookahead = .any)
    (hstate : reduction.origin.state = shift.origin.state)
    (hsymbol : reduction.symbol = shift.symbol) : Done v ts next r ∧ Done v ts next s := by
  obtain ⟨reduction₁, hr₁, htr⟩ := hpartly.exists_touched hr
  obtain ⟨shift₁, hs₁, hts⟩ := hpartly.exists_touched hs
  rcases lookAheadBoth_cases hr₁ hs₁ h with ⟨hno, rfl⟩ | ⟨_, reduction', shift', hr', hs', rfl⟩
  · have hboth : ¬ (reduction₁.lookahead = .any ∨ shift₁.lookahead = .any) := by
      intro hor
      have hconflict : reduction₁.conflictsWith shift₁ = true := by
        refine conflictsWith_of_any ?_ ?_ ?_ ?_ hor
        · rw [Transition.kind_of_edge htr.edge_eq, hreduce]
        · rw [Transition.kind_of_edge hts.edge_eq, hshift]
        · rw [Transition.origin_of_edge htr.edge_eq, Transition.origin_of_edge hts.edge_eq, hstate]
        · rw [Transition.symbol_of_edge htr.edge_eq, Transition.symbol_of_edge hts.edge_eq, hsymbol]
      rw [hno] at hconflict
      cases hconflict
    constructor
    · refine done_of_getElem? hr hr₁ (htr.resolve_left fun e => hboth (Or.inl ?_))
      rw [e, hany _ (List.mem_of_getElem? hr)]
    · refine done_of_getElem? hs hs₁ (hts.resolve_left fun e => hboth (Or.inr ?_))
      rw [e, hany _ (List.mem_of_getElem? hs)]
  · have hdone : Done v ts (now.set s shift') s := .set hs (hts.again hs') (Or.inl rfl)
    exact ⟨.set hr (htr.again hr') (Or.inl rfl), .set hr (htr.again hr') (Or.inr hdone)⟩

end Visit

/-! ## All visits -/

/-- The pairs of a reduction and a shift, by position. -/
def visits (ts : List Transition) : List (Nat × Nat) :=
  (positionsOf .reduce ts).flatMap fun r => (positionsOf .shift ts).map fun s => (r, s)

theorem mem_visits {pair : Nat × Nat} : pair ∈ visits ts ↔ ∃ reduction shift : Transition,
    ts[pair.1]? = some reduction ∧ reduction.kind = .reduce ∧
      ts[pair.2]? = some shift ∧ shift.kind = .shift := by
  rw [visits, List.mem_flatMap]
  constructor
  · rintro ⟨r, hr, hpair⟩
    obtain ⟨s, hs, rfl⟩ := List.mem_map.mp hpair
    obtain ⟨reduction, hr, hreduce⟩ := mem_positionsOf.mp hr
    obtain ⟨shift, hs, hshift⟩ := mem_positionsOf.mp hs
    exact ⟨reduction, shift, hr, hreduce, hs, hshift⟩
  · rintro ⟨reduction, shift, hr, hreduce, hs, hshift⟩
    exact ⟨pair.1, mem_positionsOf.mpr ⟨reduction, hr, hreduce⟩,
      List.mem_map.mpr ⟨pair.2, mem_positionsOf.mpr ⟨shift, hs, hshift⟩, rfl⟩⟩

/-- One step of the pass. -/
def visit (v : Survey) (m : List Transition × List (Nat × Nat)) (pair : Nat × Nat) :
    Except Failure (List Transition × List (Nat × Nat)) := do
  let (now, changed) ← lookAheadBoth v m.1 pair.1 pair.2
  return (now, if changed then m.2 ++ [pair] else m.2)

theorem lookAheadTransitions_eq_foldlM (v : Survey) (ts : List Transition) :
    lookAheadTransitions v ts = (visits ts).foldlM (visit v) (ts, []) := rfl

/-- Any part of the pass looks into disputed transitions only, and redoes nothing. -/
theorem partly_of_visits {part : List (Nat × Nat)} (hpart : ∀ pair ∈ part, pair ∈ visits ts)
    {m m' : List Transition × List (Nat × Nat)} (hm : Partly v ts m.1)
    (h : part.foldlM (visit v) m = .ok m') :
    Partly v ts m'.1 ∧ ∀ i, Done v ts m.1 i → Done v ts m'.1 i := by
  refine foldlM_induction (fun n : List Transition × List (Nat × Nat) =>
    Partly v ts n.1 ∧ ∀ i, Done v ts m.1 i → Done v ts n.1 i) (fun pair hpair n n' hn hstep => ?_)
    ⟨hm, fun _ hi => hi⟩ h
  obtain ⟨reduction, shift, hr, hreduce, hs, hshift⟩ := mem_visits.mp (hpart pair hpair)
  obtain ⟨⟨next, changed⟩, hvisit, hstep⟩ := bind_eq_ok.mp hstep
  cases hstep
  exact ⟨partly_of_visit hn.1 hr hs hvisit hreduce hshift,
    fun i hi => done_of_done hn.1 hr hs hvisit (hn.2 i hi)⟩

section Run

variable {ts' : List Transition} {pairs : List (Nat × Nat)}
  (h : lookAheadTransitions v ts = .ok (ts', pairs))

include h

/-- In the end every reduction and every shift on one symbol have been looked into. -/
theorem done_of_run (hany : ∀ t ∈ ts, t.lookahead = .any)
    (hstate : ∀ t ∈ ts, ∀ u ∈ ts, t.origin.state = u.origin.state) {r s : Nat}
    {reduction shift : Transition} (hr : ts[r]? = some reduction)
    (hreduce : reduction.kind = .reduce) (hs : ts[s]? = some shift)
    (hshift : shift.kind = .shift) (hsymbol : reduction.symbol = shift.symbol) :
    Done v ts ts' r ∧ Done v ts ts' s := by
  have hpair : (r, s) ∈ visits ts :=
    mem_visits.mpr ⟨reduction, shift, hr, hreduce, hs, hshift⟩
  -- the pass up to the visit of the pair, the visit, and the rest
  rw [lookAheadTransitions_eq_foldlM] at h
  obtain ⟨pre, post, before, after, hsplit, hpre, hstep, hpost⟩ := foldlM_visits hpair h
  have hpartly := (partly_of_visits (fun pair hmem => by simp [hsplit, hmem])
    (Partly.refl v ts) hpre).1
  obtain ⟨⟨next, changed⟩, hvisit, hstep⟩ := bind_eq_ok.mp hstep
  cases hstep
  have hsame := hstate _ (List.mem_of_getElem? hr) _ (List.mem_of_getElem? hs)
  have hdone := done_of_visit hpartly hr hs hvisit hreduce hshift hany hsame hsymbol
  have hkept := (partly_of_visits (fun pair hmem => by simp [hsplit, hmem])
    (partly_of_visit hpartly hr hs hvisit hreduce hshift) hpost).2
  exact ⟨hkept r hdone.1, hkept s hdone.2⟩

/-- The pass looks into all disputed transitions, and leaves the others alone. -/
theorem lookAheadTransitions_exact (hany : ∀ t ∈ ts, t.lookahead = .any)
    (hstate : ∀ t ∈ ts, ∀ u ∈ ts, t.origin.state = u.origin.state) :
    List.Forall₂ (fun t t' => Disputed ts t ∧ v.lookInto t = .ok t' ∨ ¬ Disputed ts t ∧ t' = t)
      ts ts' := by
  have hpartly : Partly v ts ts' := (partly_of_visits (fun _ hmem => hmem) (Partly.refl v ts) h).1
  refine List.forall₂_iff_get.mpr ⟨List.Forall₂.length_eq hpartly, fun i hi hi' => ?_⟩
  have ht : ts[i]? = some ts[i] := List.getElem?_eq_getElem hi
  have hu : ts'[i]? = some ts'[i] := List.getElem?_eq_getElem hi'
  show Disputed ts ts[i] ∧ v.lookInto ts[i] = .ok ts'[i] ∨ ¬ Disputed ts ts[i] ∧ ts'[i] = ts[i]
  by_cases hdisputed : Disputed ts ts[i]
  · refine Or.inl ⟨hdisputed, ?_⟩
    obtain ⟨hkind, ⟨shift, hshift, hkindS, hsymbolS⟩, reduction, hreduction, hkindR, hsymbolR⟩ :=
      hdisputed
    obtain ⟨s, hs⟩ := List.mem_iff_getElem?.mp hshift
    obtain ⟨r, hr⟩ := List.mem_iff_getElem?.mp hreduction
    rcases hkind with hkind | hkind
    · exact (done_of_run h hany hstate hr hkindR ht hkind hsymbolR).2 _ _ ht hu
    · exact (done_of_run h hany hstate ht hkind hs hkindS hsymbolS.symm).1 _ _ ht hu
  · refine Or.inr ⟨hdisputed, ?_⟩
    have htu : ts'[i] = ts[i] ∨ Disputed ts ts[i] ∧ v.lookInto ts[i] = .ok ts'[i] :=
      List.Forall₂.get hpartly hi hi'
    exact htu.resolve_right fun h => hdisputed h.1

end Run

/-! ## What was called for -/

/-- A transition with the lookahead that its state calls for: a shift and a reduction that are
disputed get those of their origins, and anything else gets none. -/
inductive Declared (g : Grammar) (a : Automaton) (ts : List Transition) (t : Transition) :
    Transition → Prop
  | shift {l : Lookahead} : t.kind = .shift → Contested ts t.symbol →
      ((Session.start a).shiftLookahead g t.origin).1 = .ok l →
        Declared g a ts t (t.withLookahead l)
  | reduction {item : Item} : t.kind = .reduce → Contested ts t.symbol →
      a.item t.origin = .ok item → Declared g a ts t
        (t.withLookahead ((Session.start a).reduceLookahead g (item.left g) t.symbol).1)
  | other : ¬ Disputed ts t → t.lookahead = .any → Declared g a ts t t

theorem declared_of_lookInto {g : Grammar} (wf : g.WellFormed) {a b : Automaton}
    (ha : a.BelongsTo g) (hbare : b.bare = a.bare) {t t' : Transition} (hdisputed : Disputed ts t)
    (h : (Survey.make g a).lookInto t = .ok t') : Declared g b ts t t' := by
  obtain ⟨hkind, hcontested⟩ := hdisputed
  cases hm : t.move with
  | shift target l =>
    obtain ⟨l, hl, rfl⟩ := map_eq_ok.mp ((Survey.lookInto_shift hm).symm.trans h)
    refine .shift (congrArg Move.kind hm) hcontested ?_
    rw [Session.shiftLookahead_start wf (ha.of_bare hbare), Survey.make_of_bare hbare]
    exact (Survey.shiftLookahead_of_bare hbare _).trans hl
  | reduce l =>
    have hitems : ∀ item ∈ (Survey.make g a).items, item.BelongsTo g := fun item =>
      Automaton.belongsTo_of_mem_items wf
    -- an answer was given, so there is an item at the origin
    obtain ⟨found, hfound, _⟩ := bind_eq_ok.mp h
    unfold Survey.lookaheadOf at hfound
    rw [hm] at hfound
    obtain ⟨item, horigin, _⟩ := bind_eq_ok.mp hfound
    cases (Survey.lookInto_reduce (v := .make g a) wf hitems hm horigin
      (ha.of_item horigin)).symm.trans h
    have hstart := Session.reduceLookahead_start (a := b) wf (item.left g) t.symbol
    rw [Survey.make_of_bare hbare] at hstart
    have hsame := (Checked.reduceLookahead_eq_ok wf hitems (item.left g) t.symbol).symm.trans hstart
    show Declared g b ts t
      (t.withLookahead ((Survey.make g a).reduceLookahead (item.left g) t.symbol))
    rw [Except.ok.inj hsame]
    exact .reduction (congrArg Move.kind hm) hcontested
      ((Automaton.item_of_bare hbare t.origin).trans horigin)
  | goto target => simp [Transition.kind, hm, Move.kind] at hkind
  | accept => simp [Transition.kind, hm, Move.kind] at hkind

end Refinement

namespace Automaton

theorem Reworked.bare_eq {R : List Transition → List Transition → Prop} {a b : Automaton}
    (h : Reworked R a b) : b.bare = a.bare := by
  obtain ⟨states⟩ := a
  obtain ⟨states'⟩ := b
  refine congrArg Automaton.mk ?_
  change List.Forall₂ _ states states' at h
  induction h with
  | nil => rfl
  | cons hs _ ih => rw [List.map_cons, List.map_cons, hs.1, hs.2.1, ih]

end Automaton

namespace Grammar

/-- After pruning, the pass that looks ahead leaves the automaton of a grammar with exactly the
lookaheads called for.  Nothing else about its states and transitions changes. -/
theorem lookAhead_declared {g : Grammar} (built : g.Built) (fits : g.Fits) :
    ∃ (pruned ahead : Automaton) (events : List Event),
      (Automaton.build g).prune (.make g (.build g)) = .ok pruned ∧
      pruned.lookAhead (.make g (.build g)) = .ok (ahead, events) ∧
      Automaton.Reworked (fun ts ts' => List.Forall₂ (Refinement.Declared g pruned ts) ts ts')
        pruned ahead := by
  have wf := built.wellFormed fits.symbols fits.rules
  have hc := wf.canonical fits.states
  obtain ⟨pruned, ahead, _, events, _, _, hpruned, hahead, _, _⟩ := hc.exists_refine_ok wf
  have hprune := Automaton.reworked_prune hpruned
  have hbare := hprune.bare_eq
  refine ⟨pruned, ahead, events, hpruned, hahead,
    (Automaton.reworked_lookAhead hahead).mono fun n s ts' hs hlook => ?_⟩
  obtain ⟨pairs, hlook⟩ := hlook
  obtain ⟨m, s₀, hs₀, _, hkept⟩ := hprune.exists_before (List.mem_of_getElem? hs)
  have hmem : ∀ t ∈ s.transitions, t ∈ s₀.transitions := fun t ht =>
    ((mem_of_retain hkept).mp ht).1
  have hany : ∀ t ∈ s.transitions, t.lookahead = .any := fun t ht =>
    hc.any_lookahead (List.mem_of_getElem? hs₀) (hmem t ht)
  have hstate : ∀ t ∈ s.transitions, t.origin.state = s₀.id := by
    intro t ht
    obtain ⟨_, hcomplete⟩ := hc.complete s₀ (List.mem_of_getElem? hs₀)
    obtain ⟨_, hstate, _⟩ := (hcomplete.mem_iff t).mp (hmem t ht)
    exact hstate
  have hexact := Refinement.lookAheadTransitions_exact hlook hany fun t ht u hu =>
    (hstate t ht).trans (hstate u hu).symm
  refine List.forall₂_iff_get.mpr ⟨hexact.length_eq, fun i hi hi' => ?_⟩
  rcases hexact.get hi hi' with ⟨hdisputed, hlook⟩ | ⟨hno, hsame⟩
  · exact Refinement.declared_of_lookInto wf (hc.belongsTo_grammar wf) hbare hdisputed hlook
  · rw [hsame]
    exact .other hno (hany _ (List.get_mem _ _))

/-- An `x` with a `y` behind it, after something that need not be written, or with a `z`. -/
def hinted : List Bnf.Definition :=
  [⟨"S", [⟨[⟨"hint", none⟩, ⟨"x", none⟩, ⟨"y", none⟩], 0⟩, ⟨[⟨"x", none⟩, ⟨"z", none⟩], 0⟩]⟩,
    ⟨"hint", [⟨[], 0⟩]⟩]

/-- In the first state of `hinted` a reduction and a shift are on `x`, and the reduction gets the
lookahead that tells them apart. -/
theorem lookAhead_declared_hinted : ∃ (g : Grammar) (pruned ahead : Automaton)
    (events : List Event) (s s' : State) (t t' : Transition), ofDefinitions hinted = .ok g ∧
      (Automaton.build g).prune (.make g (.build g)) = .ok pruned ∧
      pruned.lookAhead (.make g (.build g)) = .ok (ahead, events) ∧
      pruned.states[0]? = some s ∧ ahead.states[0]? = some s' ∧
      t ∈ s.transitions ∧ t' ∈ s'.transitions ∧ t.kind = .reduce ∧ t.symbol = Handle.ofNat 4 ∧
      Refinement.Contested s.transitions t.symbol ∧ t' = t.withLookahead ⟨[{Handle.ofNat 5}]⟩ := by
  obtain ⟨g, hg, h⟩ : ∃ g, ofDefinitions hinted = .ok g ∧ decide (g.Fits ∧
      ((Automaton.build g).prune (.make g (.build g))).toOption.any fun pruned =>
        pruned.states[0]?.any fun s =>
          (s.transitions.any fun u => u.kind == .shift && u.symbol == Handle.ofNat 4) &&
          s.transitions.any fun t => t.kind == .reduce && t.symbol == Handle.ofNat 4 &&
            (pruned.item t.origin).toOption.any fun item =>
              ((Session.start pruned).reduceLookahead g (item.left g) t.symbol).1 ==
                ⟨[{Handle.ofNat 5}]⟩) = true := exists_ok_of_any (by decide +kernel)
  obtain ⟨fits, h⟩ := of_decide_eq_true h
  obtain ⟨pruned, ahead, events, hpruned, hahead, hlook⟩ :=
    lookAhead_declared (.ofDefinitions hg) fits
  obtain ⟨pruned', hpruned', h⟩ := exists_ok_of_any h
  obtain rfl : pruned = pruned' := Except.ok.inj (hpruned.symm.trans hpruned')
  obtain ⟨s, hs, h⟩ := (Option.any_eq_true _ _).mp h
  simp only [Bool.and_eq_true, List.any_eq_true, beq_iff_eq] at h
  obtain ⟨⟨u, hu, hshift, hx'⟩, t, ht, ⟨hreduce, hx⟩, hitem⟩ := h
  obtain ⟨item, hitem, hset⟩ := exists_ok_of_any hitem
  obtain ⟨s', hs'⟩ := hlook.exists_at hs
  obtain ⟨i, hi⟩ := List.mem_iff_getElem?.mp ht
  obtain ⟨t', hi', hdeclared⟩ := exists_getElem?_of_forall₂ (hlook.at hs hs').2.2 hi
  have hcontested : Refinement.Contested s.transitions t.symbol :=
    ⟨⟨u, hu, hshift, hx'.trans hx.symm⟩, t, ht, hreduce, rfl⟩
  refine ⟨g, pruned, ahead, events, s, s', t, t', hg, hpruned, hahead, hs, hs', ht,
    List.mem_of_getElem? hi', hreduce, hx, hcontested, ?_⟩
  cases hdeclared with
  | shift hkind => rw [hreduce] at hkind; cases hkind
  | reduction _ _ hitem' =>
    rw [hitem] at hitem'
    cases hitem'
    rw [beq_iff_eq.mp hset]
  | other hno => exact absurd ⟨Or.inr hreduce, hcontested⟩ hno

end Grammar
end ShiftReduce
