/-
What stands behind a symbol in sentential forms.

`Stands g x behind` says that a sentential form, with the end of the input behind it, is
something, the symbol, and this behind it.  What stands behind the left side of a rule
stands behind what the rule ends with, and it may be replaced by what it derives; that is
`Stands.inside` and `Stands.derives`.

`Stands.induction` says that there is no other way.  A derivation may rewrite to the left
of the symbol, in it or to its right, so what is proved by induction on the derivation is
`Standing`, which is about every nonterminal of the form at once, and together with it
that the rules of each are at the end of a chain.
-/
import ShiftReduce.Proofs.Automaton.ViablePrefix
import ShiftReduce.Proofs.Grammar.FirstSets

namespace ShiftReduce

theorem append_eq_append_cons {α : Type} {xs ys front back : List α} {x : α}
    (h : xs ++ ys = front ++ x :: back) :
    (∃ more, xs = front ++ x :: more ∧ back = more ++ ys) ∨
      ∃ more, front = xs ++ more ∧ ys = more ++ x :: back := by
  rcases List.append_eq_append_iff.mp h with ⟨more, hfront, hys⟩ | ⟨more, hxs, hback⟩
  · exact Or.inr ⟨more, hfront, hys⟩
  · cases more with
    | nil =>
      rw [List.append_nil] at hxs
      exact Or.inr ⟨[], by rw [hxs, List.append_nil], hback.symm⟩
    | cons y more =>
      obtain ⟨rfl, hmore⟩ := List.cons.inj hback
      exact Or.inl ⟨more, hxs, hmore⟩

namespace Grammar

variable {g : Grammar}

/-- Some sentential form, with the end of the input behind it, has the symbol with this
behind it. -/
def Stands (g : Grammar) (x : SymbolId) (behind : List SymbolId) : Prop :=
  ∃ (start : SymbolId) (front : List SymbolId), g.start? = some start ∧
    g.Derives [start, .endMarker] (front ++ x :: behind)

theorem stands_start {start : SymbolId} (h : g.start? = some start) :
    g.Stands start [.endMarker] :=
  ⟨start, [], h, .refl⟩

theorem Stands.derives {x : SymbolId} {behind behind' : List SymbolId} (h : g.Stands x behind)
    (hbehind : g.Derives behind behind') : g.Stands x behind' := by
  obtain ⟨start, front, hstart, hderives⟩ := h
  refine ⟨start, front, hstart, hderives.trans ?_⟩
  have hcontext := hbehind.append (front ++ [x]) []
  simp only [List.append_assoc, List.cons_append, List.nil_append, List.append_nil] at hcontext
  exact hcontext

/-- What stands behind a left side stands behind the right side. -/
theorem Stands.inside {r : RuleId} {x : SymbolId} {front back behind : List SymbolId}
    (h : g.Stands (g.leftOf r) behind) (hr : r.index < g.rules.length)
    (hright : g.rightOf r = front ++ x :: back) : g.Stands x (back ++ behind) := by
  obtain ⟨start, before, hstart, hderives⟩ := h
  refine ⟨start, before ++ front, hstart, ?_⟩
  have hstep := hderives.tail (.replace before behind hr)
  rw [hright] at hstep
  simp only [List.append_assoc, List.cons_append] at hstep ⊢
  exact hstep

theorem Chain.stands (wf : g.WellFormed) {context front back : List SymbolId} {r : RuleId}
    {x : SymbolId} (h : g.Chain context r) (hright : g.rightOf r = front ++ x :: back) :
    ∃ more, g.Stands x (back ++ more) := by
  obtain ⟨start, rest, hstart, hderives⟩ := h.derives wf
  refine ⟨rest ++ [.endMarker], start, context ++ front, hstart, ?_⟩
  have hend := hderives.append [] [.endMarker]
  rw [hright] at hend
  simp only [List.append_assoc, List.cons_append, List.nil_append] at hend ⊢
  exact hend

theorem endMarker_ne_of_isNonterminal (wf : g.WellFormed) {x : SymbolId}
    (hx : g.isNonterminal x = true) : x ≠ .endMarker := by
  intro he
  have hterminal := wf.isTerminal_endMarker
  rw [← he, isTerminal_of_isNonterminal hx] at hterminal
  cases hterminal

/-- The end of the input stays where it is. -/
theorem Derives.exists_of_append_endMarker (wf : g.WellFormed) {xs zs : List SymbolId}
    (h : g.Derives (xs ++ [.endMarker]) zs) :
    ∃ ys, zs = ys ++ [.endMarker] ∧ g.Derives xs ys := by
  obtain ⟨ys, back, rfl, hys, hback⟩ := h.exists_append
  have hend := hback.eq_of_terminals wf (List.forall_mem_singleton.mpr wf.isTerminal_endMarker)
  exact ⟨ys, by rw [hend], hys⟩

/-- A nonterminal that stands anywhere is in a sentential form. -/
theorem Stands.exists_derives (wf : g.WellFormed) {x : SymbolId} {behind : List SymbolId}
    (h : g.Stands x behind) (hx : g.isNonterminal x = true) :
    ∃ (start : SymbolId) (front back : List SymbolId), g.start? = some start ∧
      g.Derives [start] (front ++ x :: back) ∧ behind = back ++ [.endMarker] := by
  obtain ⟨start, front, hstart, hderives⟩ := h
  have hend : g.Derives ([start] ++ [.endMarker]) (front ++ x :: behind) := hderives
  obtain ⟨ys, hys, hform⟩ := hend.exists_of_append_endMarker wf
  rcases append_eq_append_cons hys.symm with ⟨back, rfl, rfl⟩ | ⟨more, _, hmore⟩
  · exact ⟨start, front, back, hstart, hform, rfl⟩
  · have hmem : x ∈ [SymbolId.endMarker] :=
      hmore ▸ List.mem_append_right more List.mem_cons_self
    exact absurd (List.mem_singleton.mp hmem) (endMarker_ne_of_isNonterminal wf hx)

/-! ## The induction -/

/-- A relation between nonterminals and what stands behind them that has the start symbol
before the end of the input, does not mind derivations, and passes from the left side of a
rule into its right side. -/
structure Inward (g : Grammar) (P : SymbolId → List SymbolId → Prop) : Prop where
  start : ∀ start, g.start? = some start → P start [.endMarker]
  rewrites : ∀ (x : SymbolId) (behind behind' : List SymbolId), g.Rewrites behind behind' →
    P x behind → P x behind'
  inside : ∀ (context front back behind : List SymbolId) (r : RuleId) (x : SymbolId),
    g.Chain context r → r.index < g.rules.length → g.leftOf r ≠ .accept →
      g.rightOf r = front ++ x :: back → g.isNonterminal x = true →
        P (g.leftOf r) behind → P x (back ++ behind)

/-- Each nonterminal of a sequence has its rules at the end of chains and is related to what
stands behind it. -/
structure Standing (g : Grammar) (P : SymbolId → List SymbolId → Prop) (xs : List SymbolId) :
    Prop where
  accept : SymbolId.accept ∉ xs
  chain : ∀ r : RuleId, r.index < g.rules.length → g.leftOf r ∈ xs →
    ∃ context, g.Chain context r
  behind : ∀ (front back : List SymbolId) (x : SymbolId), xs = front ++ x :: back →
    g.isNonterminal x = true → P x back

variable {P : SymbolId → List SymbolId → Prop}

theorem Inward.standing_start (h : g.Inward P) (wf : g.WellFormed) {start : SymbolId}
    (hstart : g.start? = some start) : g.Standing P [start, .endMarker] := by
  obtain ⟨start', hstart', hzero, hn⟩ := wf.exists_start
  rw [hstart] at hstart'
  cases hstart'
  have hrule : g.rule? (Handle.ofNat 0) = some (Builder.acceptRule start) := hzero
  have hright : g.rightOf (Handle.ofNat 0) = [] ++ start :: [] := rightOf_of_rule? hrule
  have only : ∀ x ∈ [start, SymbolId.endMarker], g.isNonterminal x = true → x = start := by
    intro x hmem hx
    rcases List.mem_cons.mp hmem with rfl | hmem
    · rfl
    · exact absurd (List.mem_singleton.mp hmem) (endMarker_ne_of_isNonterminal wf hx)
  refine ⟨fun hmem => ?_, fun r hr hmem => ?_, fun front back x hsplit hx => ?_⟩
  · have hmem' : start ∈ g.rightOf (Handle.ofNat 0) := hright ▸ List.mem_singleton_self start
    exact (wf.mem_rightOf hmem').2.2 (only _ hmem wf.isNonterminal_accept).symm
  · have hleft := only _ hmem (wf.isNonterminal_leftOf hr)
    exact ⟨_, .link .start (hleft ▸ hright) hr⟩
  · cases front with
    | nil =>
      obtain ⟨rfl, rfl⟩ := List.cons.inj hsplit
      exact h.start start hstart
    | cons y front =>
      obtain ⟨_, hsplit⟩ := List.cons.inj hsplit
      have hmem : x ∈ [SymbolId.endMarker] :=
        hsplit ▸ List.mem_append_right front List.mem_cons_self
      exact absurd (List.mem_singleton.mp hmem) (endMarker_ne_of_isNonterminal wf hx)

theorem Inward.standing_rewrites (h : g.Inward P) (wf : g.WellFormed) {xs ys : List SymbolId}
    (hxs : g.Standing P xs) (hstep : g.Rewrites xs ys) : g.Standing P ys := by
  cases hstep with
  | @replace r before behind hr =>
    have hleft : g.leftOf r ∈ before ++ g.leftOf r :: behind :=
      List.mem_append_right before List.mem_cons_self
    obtain ⟨context, hchain⟩ := hxs.chain r hr hleft
    have hold : ∀ x ∈ before ++ g.rightOf r ++ behind,
        x ∈ g.rightOf r ∨ x ∈ before ++ g.leftOf r :: behind := by
      intro x hx
      rcases List.mem_append.mp hx with hx | hx
      · rcases List.mem_append.mp hx with hx | hx
        · exact Or.inr (List.mem_append_left _ hx)
        · exact Or.inl hx
      · exact Or.inr (List.mem_append_right _ (List.mem_cons_of_mem _ hx))
    refine ⟨fun hmem => ?_, fun r' hr' hmem => ?_, fun front back x hsplit hx => ?_⟩
    · rcases hold _ hmem with hmem | hmem
      · exact (wf.mem_rightOf hmem).2.2 rfl
      · exact hxs.accept hmem
    · rcases hold _ hmem with hmem | hmem
      · obtain ⟨front, back, hright⟩ := List.append_of_mem hmem
        exact ⟨_, .link hchain hright hr'⟩
      · exact hxs.chain r' hr' hmem
    · rw [List.append_assoc] at hsplit
      rcases append_eq_append_cons hsplit with ⟨more, rfl, rfl⟩ | ⟨more, rfl, hbehind⟩
      · -- the nonterminal stands before what was replaced
        have hp := hxs.behind front (more ++ g.leftOf r :: behind) x (by simp) hx
        rw [← List.append_assoc]
        exact h.rewrites x _ _ (.replace more behind hr) hp
      · rcases append_eq_append_cons hbehind with ⟨rest, hright, rfl⟩ | ⟨rest, rfl, rfl⟩
        · -- the nonterminal stands in the right side
          have haccept : g.leftOf r ≠ .accept := fun he => hxs.accept (he ▸ hleft)
          exact h.inside context more rest behind r x hchain hr haccept hright hx
            (hxs.behind before behind _ rfl (wf.isNonterminal_leftOf hr))
        · -- the nonterminal stands behind what was replaced
          exact hxs.behind (before ++ g.leftOf r :: rest) back x (by simp) hx

/-- Whatever passes inward holds of each nonterminal and what stands behind it. -/
theorem Stands.induction (wf : g.WellFormed) (hP : g.Inward P) {x : SymbolId}
    {behind : List SymbolId} (h : g.Stands x behind) (hx : g.isNonterminal x = true) :
    P x behind := by
  obtain ⟨start, front, hstart, hderives⟩ := h
  have hstanding : g.Standing P (front ++ x :: behind) := by
    generalize front ++ x :: behind = form at hderives
    induction hderives with
    | refl => exact hP.standing_start wf hstart
    | tail _ hstep ih => exact hP.standing_rewrites wf ih hstep
  exact hstanding.behind front behind x rfl hx

end Grammar
end ShiftReduce
