/-
The lookahead of a reduction holds exactly what can stand behind its trigger.

The search looks at the items behind the nonterminal reduced to, and behind every
nonterminal that ends where that one ends.  What stands behind one of the latter stands
behind the former, and what an item tells about the symbol after the trigger is in a
sentential form; so nothing else is found.

That nothing is missed needs the sentential forms, and `Stands.induction` goes through
them.  Where the rest of a right side vanishes, the search goes on with the left side;
where it does not, the trigger comes out of it, and since no nonterminal hides the trigger
it stands there itself.
-/
import ShiftReduce.Proofs.Automaton.FirstAndFollow
import ShiftReduce.Proofs.Automaton.InputSymbols

namespace ShiftReduce

namespace Survey

variable {g : Grammar} {a : Automaton}

/-- The nonterminals that end where `left` ends are found from `left` by going from what
stands last in a rule, or before what can vanish, to the left side. -/
theorem enclosing_induction {left : SymbolId} {P : SymbolId → Prop} (hleft : P left)
    (hstep : ∀ (item : Item) (x : SymbolId), item ∈ a.items g → item.previous? g = some x →
      P x → g.sequenceNullable (item.rest g) = true → P (item.left g)) :
    ∀ x ∈ (Survey.make g a).enclosing left, P x := by
  refine saturate_induction (fun known : SymbolSet => ∀ x ∈ known, P x) (fun known hknown => ?_) _ ?_
  · refine foldl_invariant (P := fun known : SymbolSet => ∀ x ∈ known, P x)
      (fun known item hitem hknown => ?_) hknown
    split
    · rename_i hcond
      have hparts := Bool.and_eq_true_iff.mp (Bool.and_eq_true_iff.mp hcond).1
      obtain ⟨y, hy, hmem⟩ := (Option.any_eq_true _ _).mp hparts.1
      intro x hx
      rcases SymbolSet.mem_insert.mp hx with rfl | hx
      · exact hstep item y hitem hy (hknown y (SymbolSet.contains_iff.mp hmem)) hparts.2
      · exact hknown x hx
    · exact hknown
  · intro x hx
    rw [SymbolSet.mem_singleton.mp hx]
    exact hleft

end Survey

namespace Automaton.Canonical

variable {g : Grammar} {a : Automaton} (hc : Canonical g a) (wf : g.WellFormed)

include wf

/-- What stands behind a nonterminal that ends where `left` ends stands behind `left`. -/
theorem stands_of_mem_enclosing {left x : SymbolId}
    (hx : x ∈ (Survey.make g a).enclosing left) {behind : List SymbolId}
    (h : g.Stands x behind) : g.Stands left behind := by
  refine Survey.enclosing_induction
    (P := fun x => ∀ behind, g.Stands x behind → g.Stands left behind) (fun _ h => h)
    (fun item y hitem hy ih hvanish behind h => ih behind ?_) x hx behind h
  obtain ⟨front, hright⟩ := Item.exists_split_of_previous? hy
  have hinside := h.inside (belongsTo_of_mem_items wf hitem).1 hright
  exact hinside.derives ((wf.derives_nil_iff.mpr hvanish).append [] behind)

include hc

/-- What an item tells about the symbol after the trigger stands there in a sentential
form. -/
theorem stands_of_mem_behind {item : Item} (hitem : item ∈ a.items g) {x trigger u : SymbolId}
    (hx : item.previous? g = some x) (hu : u ∈ (Survey.make g a).behind trigger item) :
    g.isTerminal u = true ∧ ∃ back, g.Stands x (trigger :: u :: back) := by
  have hrule := (belongsTo_of_mem_items wf hitem).1
  obtain ⟨before, hright⟩ := Item.exists_split_of_previous? hx
  obtain ⟨front, back, hrest, hfront, _, hu⟩ := Survey.mem_behind_iff.mp hu
  have hback := Survey.rest_of_rest hrest
  have hvanish : g.Derives front [] := wf.derives_nil_iff.mpr (List.all_eq_true.mpr hfront)
  have hmoved := (hc.mem_firstWith_iff_expects wf
    { item with dot := item.dot + front.length + 1 } hrule).mp hu
  rw [Item.Expects, hback] at hmoved
  change _ ∨ _ ∧ (if item.left g = .accept then _ else g.FollowedBy (item.left g) u) at hmoved
  rw [hrest] at hright
  -- whatever is behind the rule, the front vanishes before the trigger
  have hstands : ∀ behind more, g.Stands x ((front ++ trigger :: back) ++ behind) →
      g.Derives (back ++ behind) (u :: more) → ∃ back, g.Stands x (trigger :: u :: back) := by
    intro behind more h hmore
    refine ⟨more, h.derives ?_⟩
    have htrigger : g.Derives [trigger] [trigger] := .refl
    have hboth := hvanish.both (htrigger.both hmore)
    simp only [List.append_assoc, List.cons_append, List.nil_append] at hboth ⊢
    exact hboth
  rcases hmoved with ⟨hterminal, more, hbegins⟩ | ⟨hnil, hfollow⟩
  · obtain ⟨xs, _, context, hchain, _⟩ := hc.exists_viable_of_mem_items wf hitem
    obtain ⟨behind, h⟩ := hchain.stands wf hright
    exact ⟨hterminal, hstands behind (more ++ behind) h (hbegins.append [] behind)⟩
  · by_cases haccept : item.left g = .accept
    · -- the right side of rule 0 is the start symbol alone
      obtain ⟨start, _, hzero, _⟩ := wf.exists_start
      have hrule : g.rule? item.rule = some (Builder.acceptRule start) := by
        rw [Grammar.rule?, Handle.get?, (wf.leftOf_eq_accept hrule).mp haccept]
        exact hzero
      have hlength := congrArg List.length hright
      rw [Grammar.rightOf_of_rule? hrule] at hlength
      simp [Builder.acceptRule] at hlength
      omega
    · rw [if_neg haccept] at hfollow
      obtain ⟨hterminal, more, hleft⟩ := Grammar.followedBy_iff.mp hfollow
      refine ⟨hterminal, hstands (u :: more) more (hleft.inside hrule hright) ?_⟩
      exact hnil.append [] (u :: more)

/-- What stands after the trigger in a sentential form an item tells, if the trigger comes
out of the rest of the item and does not hide there. -/
theorem mem_behind_of_derives (item : Item) (hitem : item.rule.index < g.rules.length)
    (haccept : item.left g ≠ .accept) {trigger u : SymbolId} (htrigger : g.isTerminal trigger = true)
    (hu : g.isTerminal u = true) (hhidden : (Survey.make g a).hidden trigger item = false)
    {behind front back rest : List SymbolId} (hstands : g.Stands (item.left g) behind)
    (hfront : g.Derives (item.rest g) (trigger :: front)) (hback : g.Derives behind back)
    (he : front ++ back = u :: rest) : u ∈ (Survey.make g a).behind trigger item := by
  obtain ⟨f, hvalid, hroots, hyield⟩ := Forest.exists_of_derives hfront
  obtain ⟨leading, y, after, between, hsplit, hnullable, hafter, hmore, hfirst, hy⟩ :=
    Forest.exists_leading wf hvalid htrigger hyield
  rw [hroots] at hsplit
  rcases hy with ⟨rfl, rfl⟩ | hn
  · refine Survey.mem_behind_iff.mpr ⟨leading, _, hsplit, hnullable, htrigger, ?_⟩
    rw [hc.mem_firstWith_iff_expects wf { item with dot := item.dot + leading.length + 1 } hitem,
      Item.Expects, Survey.rest_of_rest hsplit]
    have hderives := Forest.derives hafter
    rw [hmore] at he
    cases hcase : after.yield with
    | nil =>
      rw [hcase] at he hderives
      have he : back = u :: rest := he
      refine Or.inr ⟨hderives, ?_⟩
      show if item.left g = .accept then _ else g.FollowedBy (item.left g) u
      rw [if_neg haccept]
      exact hstands.followedBy ⟨hu, rest, he ▸ hback⟩
    | cons z more =>
      rw [hcase] at he hderives
      obtain ⟨rfl, _⟩ := List.cons.inj he
      exact Or.inl ⟨hu, more, hderives⟩
  · exact absurd (Survey.hidden_iff.mpr ⟨leading, _, y, hsplit, hnullable, hn, hfirst⟩)
      (Bool.eq_false_iff.mp hhidden)

/-- That the search finds what stands behind the trigger passes inward. -/
theorem inward_reduceLookahead {left trigger : SymbolId} (hleft : left.index < g.symbols.length)
    (htrigger : g.isTerminal trigger = true)
    (hhidden : ∀ item ∈ a.items g,
      (item.previous? g).any ((Survey.make g a).enclosing left).contains = true →
        (Survey.make g a).hidden trigger item = false) :
    g.Inward fun x behind => g.Stands x behind ∧
      ∀ (u : SymbolId) (rest : List SymbolId), g.isTerminal u = true →
        g.Derives behind (trigger :: u :: rest) → x ∈ (Survey.make g a).enclosing left →
          ∃ item ∈ a.items g,
            (item.previous? g).any ((Survey.make g a).enclosing left).contains = true ∧
              u ∈ (Survey.make g a).behind trigger item where
  start := by
    refine fun start hstart => ⟨Grammar.stands_start hstart, fun u rest _ hderives _ => ?_⟩
    have hend := hderives.eq_of_terminals wf
      (List.forall_mem_singleton.mpr wf.isTerminal_endMarker)
    cases hend
  rewrites := by
    refine fun x behind behind' hstep h => ⟨h.1.derives (.single hstep), fun u rest hu hderives => ?_⟩
    exact h.2 u rest hu (hderives.head hstep)
  inside := by
    intro context front back behind r x hchain hr haccept hright hx h
    refine ⟨h.1.inside hr hright, fun u rest hu hderives hmem => ?_⟩
    obtain ⟨hitem, hprevious⟩ := hc.mem_items_of_split wf hchain hright
    have hrest : Item.rest g ⟨r, front.length + 1⟩ = back := rest_of_split hright
    obtain ⟨first, second, he, hfirst, hsecond⟩ := hderives.exists_append
    rw [← hrest] at hfirst
    cases first with
    | nil =>
      -- the rest vanishes, so the search goes on with the left side
      have he : trigger :: u :: rest = second := he
      rw [← he] at hsecond
      refine h.2 u rest hu hsecond ?_
      exact (Survey.enclosing_saturated wf hleft).2 _ x hitem hprevious hmem
        (wf.derives_nil_iff.mp hfirst) haccept
    | cons t more =>
      obtain ⟨rfl, hmore⟩ := List.cons.inj he
      have hany : (Item.previous? g ⟨r, front.length + 1⟩).any
          ((Survey.make g a).enclosing left).contains = true := by
        rw [hprevious]
        exact SymbolSet.contains_iff.mpr hmem
      refine ⟨_, hitem, hany, hc.mem_behind_of_derives wf ⟨r, _⟩ hr haccept htrigger hu
        (hhidden _ hitem hany) h.1 hfirst hsecond hmore.symm⟩

/-- Where the search gives an answer, the answer has what stands behind the trigger and
nothing else. -/
theorem mem_reduceLookahead_iff {left trigger : SymbolId} (hleft : g.isNonterminal left = true)
    (htrigger : g.isTerminal trigger = true)
    (h : (Survey.make g a).reduceLookahead left trigger ≠ .any) :
    ∃ set, (Survey.make g a).reduceLookahead left trigger = ⟨[set]⟩ ∧
      ∀ u, u ∈ set ↔ g.isTerminal u = true ∧ ∃ back, g.Stands left (trigger :: u :: back) := by
  have hlt := Grammar.lt_of_isNonterminal hleft
  simp only [Survey.reduceLookahead] at h ⊢
  split at h
  · exact absurd rfl h
  · rename_i hend
    split at h
    · exact absurd rfl h
    · rename_i hhides
      have hhidden : ∀ item ∈ a.items g,
          (item.previous? g).any ((Survey.make g a).enclosing left).contains = true →
            (Survey.make g a).hidden trigger item = false := by
        refine fun item hitem hany => Bool.eq_false_iff.mpr fun hno => hhides ?_
        exact List.any_eq_true.mpr ⟨item, List.mem_filter.mpr ⟨hitem, hany⟩, hno⟩
      rw [if_neg hend, if_neg hhides]
      rw [Lookahead.ofSet] at h ⊢
      split at h
      · exact absurd rfl h
      · rename_i hne
        rw [if_neg hne]
        refine ⟨_, rfl, fun u => ?_⟩
        rw [SymbolSet.mem_foldl_union, or_iff_right (SymbolSet.not_mem_empty u)]
        constructor
        · rintro ⟨item, hmem, hu⟩
          obtain ⟨hitem, hany⟩ := List.mem_filter.mp hmem
          obtain ⟨x, hx, hx'⟩ := (Option.any_eq_true _ _).mp hany
          obtain ⟨hterminal, back, hstands⟩ := hc.stands_of_mem_behind wf hitem hx hu
          exact ⟨hterminal, back,
            stands_of_mem_enclosing wf (SymbolSet.contains_iff.mp hx') hstands⟩
        · rintro ⟨hu, back, hstands⟩
          have hinward := hc.inward_reduceLookahead wf hlt htrigger hhidden
          obtain ⟨item, hitem, hany, hu⟩ := (hstands.induction wf hinward hleft).2 u back hu .refl
            (Survey.enclosing_saturated wf hlt).1
          exact ⟨item, List.mem_filter.mpr ⟨hitem, hany⟩, hu⟩

end Automaton.Canonical

namespace Grammar

/-- Asked about the automaton of a grammar, a session tells for a reduction on a terminal
what can stand behind that terminal, where it stands behind the nonterminal in a sentential
form; unless it tells nothing. -/
theorem reduceLookahead_of_build {g : Grammar} (built : g.Built) (fits : g.Fits) {x t : SymbolId}
    (hx : g.isNonterminal x = true) (ht : t ∈ g.terminals)
    (h : ((Session.start (.build g)).reduceLookahead g x t).1.positions ≠ []) :
    ∃ set, ((Session.start (.build g)).reduceLookahead g x t).1 = ⟨[set]⟩ ∧
      ∀ u, u ∈ set ↔ u ∈ g.inputSymbols ∧ ∃ (start : SymbolId) (front back : List SymbolId),
        g.start? = some start ∧ g.Derives [start, .endMarker] (front ++ x :: t :: u :: back) := by
  have wf := built.wellFormed fits.symbols fits.rules
  have hc := wf.canonical fits.states
  obtain ⟨hterminal, hend⟩ := wf.mem_terminals.mp ht
  have hsurvey : ((Session.start (.build g)).reduceLookahead g x t).1 =
      (Survey.make g (.build g)).reduceLookahead x t := by
    rw [Session.reduceLookahead, if_neg hend]
    rfl
  rw [hsurvey] at h ⊢
  obtain ⟨set, hset, hmem⟩ := hc.mem_reduceLookahead_iff wf hx hterminal fun he => h (by rw [he]; rfl)
  refine ⟨set, hset, fun u => (hmem u).trans ?_⟩
  constructor
  · rintro ⟨hu, back, start, front, hstart, hderives⟩
    exact ⟨wf.mem_inputSymbols.mpr hu, start, front, back, hstart, hderives⟩
  · rintro ⟨hu, start, front, back, hstart, hderives⟩
    exact ⟨wf.mem_inputSymbols.mp hu, back, start, front, hstart, hderives⟩

/-- A name, a sign and a number. -/
def assignment : List Bnf.Definition :=
  [⟨"assignment", [⟨[⟨"name", none⟩, ⟨"equals", none⟩, ⟨"number", none⟩], 0⟩]⟩,
    ⟨"name", [⟨[⟨"id", none⟩], 0⟩]⟩]

/-- Behind a name and the sign comes a number, and no name. -/
theorem reduceLookahead_of_build_assignment : ∃ (g : Grammar) (set : SymbolSet),
    ofDefinitions assignment = .ok g ∧
      ((Session.start (.build g)).reduceLookahead g (Handle.ofNat 3) (Handle.ofNat 4)).1 =
        ⟨[set]⟩ ∧
      (∃ (start : SymbolId) (front back : List SymbolId), g.start? = some start ∧
        g.Derives [start, .endMarker]
          (front ++ Handle.ofNat 3 :: Handle.ofNat 4 :: Handle.ofNat 5 :: back)) ∧
      ¬ ∃ (start : SymbolId) (front back : List SymbolId), g.start? = some start ∧
        g.Derives [start, .endMarker]
          (front ++ Handle.ofNat 3 :: Handle.ofNat 4 :: Handle.ofNat 6 :: back) := by
  obtain ⟨g, hg, h⟩ : ∃ g, ofDefinitions assignment = .ok g ∧
      decide (g.Fits ∧ g.isNonterminal (Handle.ofNat 3) = true ∧ Handle.ofNat 4 ∈ g.terminals ∧
        Handle.ofNat 6 ∈ g.inputSymbols ∧
        ((Session.start (.build g)).reduceLookahead g (Handle.ofNat 3) (Handle.ofNat 4)).1 =
          ⟨[{Handle.ofNat 5}]⟩) = true := exists_ok_of_any (by decide +kernel)
  obtain ⟨fits, hname, hequals, hid, hanswer⟩ := of_decide_eq_true h
  have hpositions :
      ((Session.start (.build g)).reduceLookahead g (Handle.ofNat 3) (Handle.ofNat 4)).1.positions ≠
        [] := by
    rw [hanswer]
    exact List.cons_ne_nil _ _
  obtain ⟨set, hset, hmem⟩ := reduceLookahead_of_build (.ofDefinitions hg) fits hname hequals
    hpositions
  obtain rfl : set = {Handle.ofNat 5} :=
    List.head_eq_of_cons_eq (congrArg Lookahead.positions (hset.symm.trans hanswer))
  refine ⟨g, _, hg, hset, ((hmem _).mp (SymbolSet.mem_singleton.mpr rfl)).2, fun hderives => ?_⟩
  have hsix := SymbolSet.mem_singleton.mp ((hmem (Handle.ofNat 6)).mpr ⟨hid, hderives⟩)
  exact absurd hsix (by decide)

end Grammar
end ShiftReduce
