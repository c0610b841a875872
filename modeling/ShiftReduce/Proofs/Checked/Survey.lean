/-
Surveys of a well-formed grammar are made, and their questions answered.

A survey looks only at items that belong to the grammar, so making it is never refused:
`survey_eq_ok` says so of any automaton.  The questions are about an item at a site, which may have
been put there by hand, so they are answered where that item belongs to the grammar.

The lookahead of a reduction is found in one pass over pairs of what has been seen, where the function
without checks asks twice.  `foldl_seen` is what makes the two agree.
-/
import ShiftReduce.Checked.Survey
import ShiftReduce.Proofs.Automaton.Follow
import ShiftReduce.Proofs.Checked.Item
import ShiftReduce.Proofs.Grammar.FirstSets

namespace ShiftReduce
namespace Checked

section Grammar

variable {g : Grammar} (wf : g.WellFormed)

include wf

theorem firstWith_eq_ok (follow : List SymbolSet) {item : Item} (h : item.BelongsTo g) :
    firstWith g follow item = .ok (item.firstWith g follow) := by
  have hsequence : sequenceFirst g (item.rest g) =
      .ok (g.sequenceFirst (item.rest g), g.sequenceNullable (item.rest g)) :=
    Failure.orForeign_eq_ok.mpr (wf.sequenceFirst?_eq_some fun x hx => lt_of_mem_rest wf hx)
  refine bind_eq_ok.mpr ⟨_, left_eq_ok h, bind_eq_ok.mpr ⟨_, rest_eq_ok h,
    bind_eq_ok.mpr ⟨_, hsequence, ?_⟩⟩⟩
  rw [Item.firstWith]
  show (if g.sequenceNullable (item.rest g) = true then _ else _) = _
  split
  · split
    · rfl
    · rfl
  · rfl

/-! ## The follow table -/

theorem follower_eq_ok {item : Item} (h : item.BelongsTo g) :
    follower g item = .ok (item.follower? g) := by
  refine bind_eq_ok.mpr ⟨_, previous_eq_ok h, ?_⟩
  rw [Item.follower?]
  cases hx : item.previous? g with
  | none => rfl
  | some x =>
    refine bind_eq_ok.mpr ⟨_, isNonterminal_eq_ok (lt_of_previous? wf hx), ?_⟩
    show (if g.isNonterminal x = true then _ else _) = Except.ok (if _ then _ else _)
    split
    · rfl
    · rfl

theorem followers_eq_ok (a : Automaton) : followers g (a.items g) = .ok (a.followers g) := by
  refine bind_eq_ok.mpr ⟨_, mapM_eq_ok_map fun item hitem => follower_eq_ok wf
    (Automaton.belongsTo_of_mem_items wf hitem), ?_⟩
  show Except.ok (((a.items g).map (Item.follower? g)).filterMap id) = _
  rw [List.filterMap_map]
  rfl

/-- The table keeps an entry for every symbol, and what stands before a dot is one of them. -/
theorem followTable_eq_ok (a : Automaton) :
    followTable g (a.items g) = .ok (a.followTable g) := by
  let P := fun follow : List SymbolSet => follow.length = g.symbols.length
  refine bind_eq_ok.mpr ⟨_, followers_eq_ok wf a, ?_⟩
  refine saturateM_eq_ok P (fun follow hfollow => ?_) _ List.length_replicate
  refine foldlM_eq_ok_foldl P (fun ⟨x, item⟩ hentry follow hfollow => ?_) hfollow
  obtain ⟨hitem, hx, _⟩ := Automaton.mem_followers.mp hentry
  have hbelongs := Automaton.belongsTo_of_mem_items wf hitem
  have hlt : x.index < follow.length := hfollow ▸ lt_of_previous? wf hx
  refine ⟨bind_eq_ok.mpr ⟨_, firstWith_eq_ok wf follow hbelongs, ?_⟩,
    (List.length_modify ..).trans hfollow⟩
  rw [List.getElem?_eq_getElem hlt, Automaton.addFollow, List.modify_eq_set_getElem?,
    List.getElem?_eq_getElem hlt]
  rfl

/-- Whatever the automaton, its survey is made. -/
theorem survey_eq_ok (a : Automaton) : survey g a = .ok (.make g a) :=
  bind_eq_ok.mpr ⟨_, followTable_eq_ok wf a, rfl⟩

end Grammar

/-! ## The lookahead of a reduction -/

section Survey

variable {v : Survey} (wf : v.grammar.WellFormed)
  (hitems : ∀ item ∈ v.items, item.BelongsTo v.grammar)

include wf hitems

omit wf in
theorem enclosing_eq_ok (left : SymbolId) : enclosing v left = .ok (v.enclosing left) := by
  let P := fun _ : SymbolSet => True
  refine saturateM_eq_ok P (fun known _ => ?_) _ trivial
  refine foldlM_eq_ok_foldl P (fun item hitem known _ => ⟨?_, trivial⟩) trivial
  have hbelongs := hitems item hitem
  refine bind_eq_ok.mpr ⟨_, previous_eq_ok hbelongs, ?_⟩
  cases hknown : (item.previous? v.grammar).any known.contains with
  | false => rfl
  | true =>
    refine bind_eq_ok.mpr ⟨_, left_eq_ok hbelongs, bind_eq_ok.mpr ⟨_, rest_eq_ok hbelongs, ?_⟩⟩
    rw [Bool.true_and]
    split
    · rfl
    · rfl

omit wf hitems in
/-- Two things seen in one pass: whether some member passes a test, and a union over those that pass
another one. -/
theorem foldl_seen {α : Type} (p q : α → Bool) (f : α → SymbolSet) (xs : List α)
    (seen : Bool × SymbolSet) :
    xs.foldl (fun seen x => (seen.1 || p x, if q x then seen.2 ∪ f x else seen.2)) seen =
      (seen.1 || xs.any p, (xs.filter q).foldl (fun acc x => acc ∪ f x) seen.2) := by
  induction xs generalizing seen with
  | nil => simp
  | cons x rest ih =>
    rw [List.foldl_cons, ih, List.any_cons, Bool.or_assoc, List.filter_cons]
    cases q x <;> rfl

omit hitems in
theorem lookAt_eq_ok {trigger : SymbolId} {item : Item} (h : item.BelongsTo v.grammar)
    {entry : SymbolId × Nat} (hentry : entry ∈ v.leading item) (seen : Bool × SymbolSet) :
    lookAt v trigger item seen entry = .ok
      (seen.1 || (v.grammar.isNonterminal entry.1 && (v.grammar.firstOf entry.1).contains trigger),
        if v.grammar.isTerminal entry.1 && entry.1 == trigger then
          seen.2 ∪ Item.firstWith v.grammar v.follow { item with dot := entry.2 + 1 }
        else seen.2) := by
  obtain ⟨x, position⟩ := entry
  obtain ⟨hle, hx⟩ := List.mem_zipIdx_iff_le_and_getElem?_sub.mp hentry
  obtain ⟨front, back, hrest, hfront, _⟩ := exists_of_getElem?_leadingSymbols hx
  have hmem : x ∈ item.rest v.grammar := hrest ▸ List.mem_append_right front List.mem_cons_self
  have hsymbol : x.index < v.grammar.symbols.length := lt_of_mem_rest wf hmem
  -- the position is that of a symbol of the rule
  have hmoved : Item.BelongsTo v.grammar { item with dot := position + 1 } := by
    refine ⟨h.1, ?_⟩
    have hlength := congrArg List.length hrest
    rw [Item.rest, List.length_drop, List.length_append, List.length_cons] at hlength
    show position + 1 ≤ (v.grammar.rightOf item.rule).length
    omega
  refine bind_eq_ok.mpr ⟨_, isTerminal_eq_ok hsymbol, ?_⟩
  have hkind := Grammar.isTerminal_eq_not_isNonterminal hsymbol
  cases hn : v.grammar.isNonterminal x with
  | true =>
    rw [hn] at hkind
    simp only [hkind, Bool.not_true, Bool.false_and, Bool.true_and]
    exact bind_eq_ok.mpr ⟨_, firstOf_eq_ok wf hsymbol, rfl⟩
  | false =>
    rw [hn] at hkind
    simp only [hkind, Bool.not_false, Bool.true_and, Bool.false_and, Bool.or_false, beq_iff_eq,
      if_true]
    split
    · exact bind_eq_ok.mpr ⟨_, firstWith_eq_ok wf v.follow hmoved, rfl⟩
    · rfl

omit hitems in
theorem lookBehind_eq_ok (ending : SymbolSet) (trigger : SymbolId) {item : Item}
    (h : item.BelongsTo v.grammar) (seen : Bool × SymbolSet) :
    lookBehind v ending trigger seen item = .ok
      (seen.1 || ((item.previous? v.grammar).any ending.contains && v.hidden trigger item),
        if (item.previous? v.grammar).any ending.contains then
          seen.2 ∪ v.behind trigger item
        else seen.2) := by
  refine bind_eq_ok.mpr ⟨_, previous_eq_ok h, ?_⟩
  cases hending : (item.previous? v.grammar).any ending.contains with
  | false =>
    rw [Bool.false_and, Bool.or_false]
    rfl
  | true =>
    have hseen := (foldlM_eq_ok_foldl (f := lookAt v trigger item) (fun _ => True)
      (fun entry hentry seen _ => ⟨lookAt_eq_ok wf h hentry seen, trivial⟩)
      (b := (false, (∅ : SymbolSet))) trivial).1
    rw [foldl_seen, Bool.false_or] at hseen
    exact bind_eq_ok.mpr ⟨_, rest_eq_ok h, bind_eq_ok.mpr ⟨_, hseen, rfl⟩⟩

theorem reduceLookahead_eq_ok (left trigger : SymbolId) :
    reduceLookahead v left trigger = .ok (v.reduceLookahead left trigger) := by
  rw [reduceLookahead, Survey.reduceLookahead]
  split
  · rfl
  · have hseen := (foldlM_eq_ok_foldl (f := lookBehind v (v.enclosing left) trigger) (fun _ => True)
      (fun item hitem seen _ => ⟨lookBehind_eq_ok wf _ trigger (hitems item hitem) seen, trivial⟩)
      (b := (false, (∅ : SymbolSet))) trivial).1
    rw [foldl_seen, Bool.false_or] at hseen
    refine bind_eq_ok.mpr ⟨_, enclosing_eq_ok hitems left, bind_eq_ok.mpr ⟨_, hseen, ?_⟩⟩
    simp only [List.any_filter]
    split
    · rfl
    · rfl

end Survey

end Checked

/-! ## Questions -/

namespace Survey

variable {v : Survey} (wf : v.grammar.WellFormed) {site : Site} {item : Item}

include wf

theorem firstSet_eq_ok (hitem : v.automaton.item site = .ok item) (h : item.BelongsTo v.grammar) :
    v.firstSet site = .ok (item.firstWith v.grammar v.follow) :=
  bind_eq_ok.mpr ⟨item, hitem, Checked.firstWith_eq_ok wf v.follow h⟩

/-- The lookahead of a shift is found where its dot has moved on. -/
theorem shiftLookahead_eq_ok {origin : Site} {next : Item}
    (hsite : v.automaton.advancedSite v.grammar origin = .ok site)
    (hnext : v.automaton.item site = .ok next) (h : next.BelongsTo v.grammar) :
    v.shiftLookahead origin = .ok (.ofSet (next.firstWith v.grammar v.follow)) :=
  bind_eq_ok.mpr ⟨site, hsite, bind_eq_ok.mpr ⟨_, firstSet_eq_ok wf hnext h, rfl⟩⟩

omit wf in
theorem priority_eq_ok {t : Transition} (hitem : v.automaton.item t.origin = .ok item)
    (h : item.BelongsTo v.grammar) : v.priority t = .ok (v.grammar.priorityOf item.rule) := by
  obtain ⟨entry, _, _, hentry, _, _, hpriority⟩ := Checked.exists_rule_ok h.1
  exact bind_eq_ok.mpr ⟨item, hitem, bind_eq_ok.mpr ⟨entry, hentry, congrArg _ hpriority⟩⟩

end Survey
end ShiftReduce
