/-
The follow sets of an automaton are those of its grammar.

What follows a symbol is said by derivations: some sentential form, with the end of the
input behind it, has the one right behind the other.  The follow table knows no
derivations, only the items of the automaton, and `mem_followTable_iff` says that it comes
to the same.

Every item is viable, so what the table takes from it stands in a sentential form.  In the
other direction it is enough, by `Stands.induction`, that what begins behind a left side
being in its follow set passes inward, and that is what an item behind a nonterminal does.
-/
import ShiftReduce.Proofs.Automaton.Follow
import ShiftReduce.Proofs.Automaton.Sentential

namespace ShiftReduce

theorem Item.exists_split_of_previous? {g : Grammar} {item : Item} {x : SymbolId}
    (h : item.previous? g = some x) : ∃ front, g.rightOf item.rule = front ++ x :: item.rest g := by
  unfold Item.previous? at h
  split at h
  · cases h
  · rename_i before hdot
    obtain ⟨hlt, hget⟩ := List.getElem?_eq_some_iff.mp h
    refine ⟨(g.rightOf item.rule).take before, ?_⟩
    rw [Item.rest, hdot, ← hget, ← List.drop_eq_getElem_cons hlt, List.take_append_drop]

namespace Grammar

variable {g : Grammar}

/-- Some sentential form, with the end of the input behind it, has this input symbol right
behind that symbol. -/
def FollowedBy (g : Grammar) (x t : SymbolId) : Prop :=
  g.isTerminal t = true ∧ ∃ (start : SymbolId) (front back : List SymbolId),
    g.start? = some start ∧ g.Derives [start, .endMarker] (front ++ x :: t :: back)

theorem followedBy_iff {x t : SymbolId} :
    g.FollowedBy x t ↔ g.isTerminal t = true ∧ ∃ back, g.Stands x (t :: back) := by
  constructor
  · rintro ⟨ht, start, front, back, hstart, hderives⟩
    exact ⟨ht, back, start, front, hstart, hderives⟩
  · rintro ⟨ht, back, start, front, hstart, hderives⟩
    exact ⟨ht, start, front, back, hstart, hderives⟩

theorem Stands.followedBy {x t : SymbolId} {behind : List SymbolId} (h : g.Stands x behind)
    (ht : g.Begins behind t) : g.FollowedBy x t := by
  obtain ⟨hterminal, back, hback⟩ := ht
  exact followedBy_iff.mpr ⟨hterminal, back, h.derives hback⟩

theorem Begins.append {xs : List SymbolId} {t : SymbolId} (h : g.Begins xs t)
    (more : List SymbolId) : g.Begins (xs ++ more) t := by
  obtain ⟨ht, rest, hrest⟩ := h
  exact ⟨ht, rest ++ more, hrest.append [] more⟩

/-- What the rest of a right side begins with follows what stands before it. -/
theorem Chain.followedBy (wf : g.WellFormed) {context front back : List SymbolId} {r : RuleId}
    {x t : SymbolId} (h : g.Chain context r) (hright : g.rightOf r = front ++ x :: back)
    (hback : g.Begins back t) : g.FollowedBy x t := by
  obtain ⟨more, hstands⟩ := h.stands wf hright
  exact hstands.followedBy (hback.append more)

/-- What follows a left side follows the last symbol of the right side, and any symbol that
only vanishing ones stand behind. -/
theorem FollowedBy.of_leftOf {r : RuleId} {t : SymbolId} (h : g.FollowedBy (g.leftOf r) t)
    (hr : r.index < g.rules.length) {front back : List SymbolId} {x : SymbolId}
    (hright : g.rightOf r = front ++ x :: back) (hback : g.Derives back []) :
    g.FollowedBy x t := by
  obtain ⟨ht, behind, hstands⟩ := followedBy_iff.mp h
  exact (hstands.inside hr hright).followedBy ⟨ht, behind, hback.append [] (t :: behind)⟩

/-- What a table says follows a symbol follows it. -/
def Following (g : Grammar) (table : List SymbolSet) : Prop :=
  ∀ x, ∀ t ∈ setAt table x, g.FollowedBy x t

end Grammar

/-- What can come at the dot of a viable item follows the symbol before the dot. -/
theorem Item.Viable.followedBy {g : Grammar} (wf : g.WellFormed) {table : List SymbolSet}
    (h : g.Following table) {item : Item} {xs : List SymbolId} (hviable : item.Viable g xs)
    (hitem : item.rule.index < g.rules.length) {x t : SymbolId} (hx : item.previous? g = some x)
    (ht : t ∈ item.firstWith g table) : g.FollowedBy x t := by
  obtain ⟨_, context, hchain, _⟩ := hviable
  obtain ⟨front, hright⟩ := Item.exists_split_of_previous? hx
  have hfirst : t ∈ g.sequenceFirst (item.rest g) → g.FollowedBy x t := fun ht =>
    hchain.followedBy wf hright (wf.mem_sequenceFirst_iff.mp ht)
  simp only [Item.firstWith] at ht
  split at ht
  · rename_i hnullable
    split at ht
    · rename_i haccept
      -- behind rule 0 the input ends, and its right side is the start symbol
      rcases SymbolSet.mem_insert.mp ht with rfl | ht
      · obtain ⟨start, hstart, hzero, _⟩ := wf.exists_start
        have hrule : g.rule? item.rule = some (Builder.acceptRule start) := by
          rw [Grammar.rule?, Handle.get?, (wf.leftOf_eq_accept hitem).mp haccept]
          exact hzero
        have hmem : x ∈ g.rightOf item.rule := Automaton.mem_of_previous? hx
        rw [Grammar.rightOf_of_rule? hrule] at hmem
        rw [List.mem_singleton.mp hmem]
        exact (Grammar.stands_start hstart).followedBy ⟨wf.isTerminal_endMarker, [], .refl⟩
      · exact hfirst ht
    · rcases SymbolSet.mem_union.mp ht with ht | ht
      · exact hfirst ht
      · exact (h _ t ht).of_leftOf hitem hright (wf.derives_nil_iff.mpr hnullable)
  · exact hfirst ht

namespace Automaton

variable {g : Grammar} {a : Automaton}

theorem rest_of_split {r : RuleId} {front back : List SymbolId} {x : SymbolId}
    (h : g.rightOf r = front ++ x :: back) : Item.rest g ⟨r, front.length + 1⟩ = back := by
  show (g.rightOf r).drop (front.length + 1) = back
  rw [h, ← List.drop_drop, List.drop_left]
  rfl

namespace Canonical

variable (hc : Canonical g a) (wf : g.WellFormed)

include hc wf

theorem exists_viable_of_mem_items {item : Item} (h : item ∈ a.items g) :
    ∃ xs, item.Viable g xs := by
  obtain ⟨s, hs, hcontains⟩ := List.any_eq_true.mp (List.mem_filter.mp h).2
  obtain ⟨n, hn⟩ := List.mem_iff_getElem?.mp hs
  obtain ⟨xs, hpath⟩ := hc.reached n (List.getElem?_eq_some_iff.mp hn).1
  obtain ⟨s', hs', hviable⟩ := hc.mem_items_iff_viable wf hpath
  rw [hn] at hs'
  cases hs'
  exact ⟨xs, (hviable item).mp (List.contains_iff_mem.mp hcontains)⟩

theorem mem_items_of_viable {item : Item} {xs : List SymbolId} (h : item.Viable g xs) :
    item ∈ a.items g := by
  obtain ⟨q, hq⟩ := hc.exists_path_of_viable wf h
  obtain ⟨s, hs, hviable⟩ := hc.mem_items_iff_viable wf hq
  have hitem := (hviable item).mpr h
  refine List.mem_filter.mpr ⟨(Grammar.mem_items (Nat.le_of_lt wf.rules_lt)).mpr ?_, ?_⟩
  · exact hc.belongsTo wf hs item hitem
  · exact List.any_eq_true.mpr ⟨s, List.mem_of_getElem? hs, List.contains_iff_mem.mpr hitem⟩

/-! ## Nothing else is in the table -/

theorem following_followTable : g.Following (a.followTable g) := by
  refine saturate_induction g.Following (fun table htable => ?_) _ fun x t ht => ?_
  · refine foldl_invariant (P := g.Following) (fun table follower hmem h x t ht => ?_) htable
    obtain ⟨y, item⟩ := follower
    obtain ⟨hitem, hprevious, _⟩ := mem_followers.mp hmem
    rcases SymbolTable.mem_setAt_modify.mp ht with ht | ⟨hx, _, ht⟩
    · exact h x t ht
    · obtain ⟨xs, hviable⟩ := hc.exists_viable_of_mem_items wf hitem
      rw [Handle.ext hx]
      exact hviable.followedBy wf h (belongsTo_of_mem_items wf hitem).1 hprevious ht
  · rw [setAt, List.getElem?_replicate] at ht
    split at ht
    · exact absurd ht (SymbolSet.not_mem_empty t)
    · exact absurd ht (SymbolSet.not_mem_empty t)

/-! ## Nothing is missing -/

/-- Where a symbol stands in a rule that a chain leads to, the item behind it occurs. -/
theorem mem_items_of_split {context front back : List SymbolId} {r : RuleId} {x : SymbolId}
    (h : g.Chain context r) (hright : g.rightOf r = front ++ x :: back) :
    ⟨r, front.length + 1⟩ ∈ a.items g ∧ Item.previous? g ⟨r, front.length + 1⟩ = some x := by
  have hviable : Item.Viable g (context ++ (g.rightOf r).take (front.length + 1))
      ⟨r, front.length + 1⟩ := by
    refine ⟨?_, context, h, rfl⟩
    show front.length + 1 ≤ (g.rightOf r).length
    rw [hright, List.length_append, List.length_cons]
    omega
  refine ⟨hc.mem_items_of_viable wf hviable, ?_⟩
  show (g.rightOf r)[front.length]? = some x
  rw [hright, List.getElem?_append_right (Nat.le_refl _), Nat.sub_self]
  rfl

/-- What can come at a dot is in the follow set of the nonterminal before it. -/
theorem mem_followTable_of_split {context front back : List SymbolId} {r : RuleId} {x t : SymbolId}
    (h : g.Chain context r) (hright : g.rightOf r = front ++ x :: back)
    (hx : g.isNonterminal x = true)
    (ht : t ∈ Item.firstWith g (a.followTable g) ⟨r, front.length + 1⟩) :
    t ∈ setAt (a.followTable g) x := by
  obtain ⟨hitem, hprevious⟩ := hc.mem_items_of_split wf h hright
  have hfixed := (followTable_saturated wf a).2 (x, _)
    (mem_followers.mpr ⟨hitem, hprevious, hx⟩)
  refine SymbolTable.subset_of_modify_eq ?_ hfixed ht
  rw [(followTable_saturated wf a).1.length_eq]
  exact Grammar.lt_of_isNonterminal hx

/-- That what begins behind a nonterminal is in its follow set passes inward. -/
theorem inward_followTable : g.Inward fun x behind =>
    ∀ t, g.Begins behind t → t ∈ setAt (a.followTable g) x where
  start := by
    intro start hstart t ht
    obtain ⟨start', hstart', hzero, hn⟩ := wf.exists_start
    rw [hstart] at hstart'
    cases hstart'
    have hrule : g.rule? (Handle.ofNat 0) = some (Builder.acceptRule start) := hzero
    have hright : g.rightOf (Handle.ofNat 0) = [] ++ start :: [] :=
      Grammar.rightOf_of_rule? hrule
    have haccept : g.leftOf (Handle.ofNat 0) = .accept :=
      (wf.leftOf_eq_accept (List.getElem?_eq_some_iff.mp hzero).1).mpr rfl
    obtain ⟨_, rest, hderives⟩ := ht
    obtain ⟨rfl, _⟩ := List.cons.inj (hderives.eq_of_terminals wf
      (List.forall_mem_singleton.mpr wf.isTerminal_endMarker))
    refine hc.mem_followTable_of_split wf .start hright hn ?_
    simp only [Item.firstWith, Item.left, haccept, rest_of_split hright]
    exact SymbolSet.mem_insert.mpr (Or.inl rfl)
  rewrites := fun _ _ _ hstep h t ht => h t (ht.of_derives (.single hstep))
  inside := by
    intro context front back behind r x hchain hr haccept hright hx hleft t ht
    refine hc.mem_followTable_of_split wf hchain hright hx ?_
    simp only [Item.firstWith, Item.left, rest_of_split hright, if_neg haccept]
    rcases ht.append_cases wf with hback | ⟨hvanish, hbehind⟩
    · have hfirst := wf.mem_sequenceFirst_iff.mpr hback
      split
      · exact SymbolSet.mem_union.mpr (Or.inl hfirst)
      · exact hfirst
    · rw [if_pos (wf.derives_nil_iff.mp hvanish)]
      exact SymbolSet.mem_union.mpr (Or.inr (hleft t hbehind))

/-- The follow set of a nonterminal has what follows it in sentential forms. -/
theorem mem_followTable_iff {x t : SymbolId} (hx : g.isNonterminal x = true) :
    t ∈ setAt (a.followTable g) x ↔ g.FollowedBy x t := by
  constructor
  · exact hc.following_followTable wf x t
  · intro h
    obtain ⟨ht, back, hstands⟩ := Grammar.followedBy_iff.mp h
    exact hstands.induction wf (hc.inward_followTable wf) hx t ⟨ht, back, .refl⟩

end Canonical

end Automaton
end ShiftReduce
