/-
Every question about an item of an automaton has an answer.

The follow set of an item that the closure added is that of the item that called for it,
which stands before it in its state, so the search for the source of a follow set always
ends at an item that was there before the closure.  Where the dot of that item can move,
the item it becomes stands in some state.  `Askable` has both facts.  They are about items
and not about transitions, which is why they stay when transitions are refined.
-/
import ShiftReduce.Automaton.Session
import ShiftReduce.Proofs.Automaton.Population
import ShiftReduce.Proofs.Refinement.Answers

namespace ShiftReduce
namespace ItemSet

/-- Every item outside the kernel is called for by an item before it. -/
def Introduced (g : Grammar) (s : ItemSet) : Prop :=
  ∀ (position : Nat) (item : Item), s.kernelSize ≤ position → s.items[position]? = some item →
    ∃ (earlier : Nat) (parent : Item), earlier < position ∧ s.items[earlier]? = some parent ∧
      parent.next? g = some (item.left g)

variable {g : Grammar}

/-- What calls for an item has the left side of that item behind its dot. -/
theorem Justified.introduced (wf : g.WellFormed) {s : ItemSet} (h : s.Justified g) :
    s.Introduced g := by
  intro position item hkernel hitem
  obtain ⟨earlier, parent, hlt, hparent, hcalled⟩ := h position item hkernel hitem
  obtain ⟨x, r, hx, _, hr, rfl⟩ := mem_introduced.mp hcalled
  have hleft : g.leftOf r = x := (wf.mem_rulesFor.mp hr).2
  exact ⟨earlier, parent, hlt, hparent, hx.trans (congrArg some hleft.symm)⟩

theorem introduced_close (wf : g.WellFormed) (s : ItemSet) : (s.close g).Introduced g :=
  (justified_close g s).introduced wf

/-- The first item that calls for the rules of a nonterminal. -/
theorem introducer_eq_ok {x : SymbolId} {items : List Item}
    (h : ∀ item ∈ items, item.BelongsTo g) :
    Checked.introducer g x items = .ok (items.findIdx? fun item => item.next? g == some x) := by
  induction items with
  | nil => rfl
  | cons item rest ih =>
    obtain ⟨hitem, hrest⟩ := List.forall_mem_cons.mp h
    refine bind_eq_ok.mpr ⟨_, Checked.next_eq_ok hitem, ?_⟩
    rw [List.findIdx?_cons, ih hrest]
    by_cases hx : item.next? g = some x
    · rw [if_pos hx, if_pos (beq_iff_eq.mpr hx)]
      rfl
    · rw [if_neg hx, if_neg fun e => hx (beq_iff_eq.mp e)]
      rfl

theorem Introduced.exists_introducer {s : ItemSet} (h : s.Introduced g)
    (hbelongs : ∀ item ∈ s.items, item.BelongsTo g) {position : Nat} {item : Item}
    (hitem : s.items[position]? = some item) (hkernel : s.isKernel position = false) :
    ∃ (earlier : Nat) (parent : Item),
      Checked.introducer g (item.left g) (s.items.take position) = .ok (some earlier) ∧
        earlier < position ∧ s.items[earlier]? = some parent := by
  have hle : s.kernelSize ≤ position := Nat.le_of_not_lt (of_decide_eq_false hkernel)
  obtain ⟨p, parent, hlt, hparent, hx⟩ := h position item hle hitem
  have hlength := (List.getElem?_eq_some_iff.mp hitem).1
  have hearlier : ∀ item ∈ s.items.take position, item.BelongsTo g := fun item hmem =>
    hbelongs item (List.mem_of_mem_take hmem)
  have hfind := introducer_eq_ok (x := item.left g) hearlier
  cases hfound : (s.items.take position).findIdx? fun parent =>
      parent.next? g == some (item.left g) with
  | none =>
    have hmem : parent ∈ s.items.take position :=
      List.mem_of_getElem? ((List.getElem?_take_of_lt hlt).trans hparent)
    have hno := List.findIdx?_eq_none_iff.mp hfound parent hmem
    rw [hx, beq_self_eq_true] at hno
    cases hno
  | some earlier =>
    rw [hfound] at hfind
    have hearlier : earlier < position :=
      Nat.lt_of_lt_of_le (Checked.introducer_lt hfind) (List.length_take_le position _)
    exact ⟨earlier, _, hfind, hearlier, List.getElem?_eq_getElem (by omega)⟩

end ItemSet

namespace Automaton

/-! ## What is true of all item sets of a construction -/

section Construction

variable {g : Grammar} {P : ItemSet → Prop}

theorem forall_itemSet_addState {a : Automaton} (ha : ∀ s ∈ a.states, P s.itemSet)
    {set : ItemSet} (hset : P set) : ∀ s ∈ (a.addState set).2.states, P s.itemSet := by
  rcases addState_cases a set with ⟨_, _, _, e⟩ | ⟨_, e⟩
  · rw [e]
    exact ha
  · rw [e]
    intro s hs
    rcases List.mem_append.mp hs with hs | hs
    · exact ha s hs
    · rw [List.mem_singleton.mp hs]
      exact hset

theorem forall_itemSet_addStates {successors : List (SymbolId × ItemSet)} {a : Automaton}
    (ha : ∀ s ∈ a.states, P s.itemSet) (hsets : ∀ e ∈ successors, P e.2) :
    ∀ s ∈ (addStates successors a).2.states, P s.itemSet := by
  induction successors generalizing a with
  | nil => exact ha
  | cons e rest ih =>
    obtain ⟨he, hrest⟩ := List.forall_mem_cons.mp hsets
    exact ih (forall_itemSet_addState ha he) hrest

theorem forall_itemSet_visit (hsuccessor : ∀ items x, P (successor g items x)) {a : Automaton}
    (ha : ∀ s ∈ a.states, P s.itemSet) (i : Nat) :
    ∀ s ∈ (a.visit g i).states, P s.itemSet := by
  cases hs : a.states[i]? with
  | none =>
    unfold visit
    rw [hs]
    exact ha
  | some s =>
    rw [visit_eq hs]
    have hadded : ∀ s' ∈ (addStates (successorsOf g s) a).2.states, P s'.itemSet := by
      refine forall_itemSet_addStates ha fun e he => ?_
      obtain ⟨x, _, rfl⟩ := List.mem_map.mp he
      exact hsuccessor _ x
    generalize (addStates (successorsOf g s) a).2 = b at hadded
    generalize transitionsOf g (addStates (successorsOf g s) a).1 i s = ts
    intro s' hs'
    obtain ⟨n, hn⟩ := List.mem_iff_getElem?.mp hs'
    have hlt : n < b.size := by
      rw [← size_addAt b i ts]
      exact (List.getElem?_eq_some_iff.mp hn).1
    -- the transitions of a state have no part in its items
    obtain ⟨s'', hs'', _, hset⟩ := extends_addAt b i ts n _ (List.getElem?_eq_getElem hlt)
    rw [hn] at hs''
    cases hs''
    rw [hset]
    exact hadded _ (List.getElem_mem hlt)

/-- What is true of the first item set and of all successors is true of every item set of
the automaton. -/
theorem forall_itemSet_build (hstart : P (startSet g))
    (hsuccessor : ∀ items x, P (successor g items x)) : ∀ s ∈ (build g).states, P s.itemSet := by
  have run : ∀ (bound i : Nat) (a : Automaton), (∀ s ∈ a.states, P s.itemSet) →
      ∀ s ∈ (populateFrom g bound i a).states, P s.itemSet := by
    intro bound
    induction bound with
    | zero => exact fun _ _ ha => ha
    | succ bound ih =>
      intro i a ha
      rw [populateFrom]
      split
      · exact ih _ _ (forall_itemSet_visit hsuccessor ha i)
      · exact ha
  refine run _ 0 (initial g) fun s hs => ?_
  rw [states_initial, List.mem_singleton] at hs
  rw [hs]
  exact hstart

theorem introduced_build (wf : g.WellFormed) :
    ∀ s ∈ (build g).states, s.itemSet.Introduced g :=
  forall_itemSet_build (ItemSet.introduced_close wf _) fun _ _ => ItemSet.introduced_close wf _

end Construction

/-! ## Sources of follow sets -/

/-- What a question about an item needs: states under their numbers, items of the grammar,
introducers before what they introduce, and a place for every item whose dot has moved. -/
structure Askable (g : Grammar) (a : Automaton) : Prop where
  index_id : ∀ (n : Nat) (s : State), a.states[n]? = some s → s.id.index = n
  belongsTo : a.BelongsTo g
  introduced : ∀ s ∈ a.states, s.itemSet.Introduced g
  moved : ∀ s ∈ a.states, ∀ item ∈ s.itemSet.items, ∀ next : Item,
    item.advance? g = some next → next ∈ a.items g

theorem next?_of_advance? {g : Grammar} {item next : Item} (hitem : item.BelongsTo g)
    (h : item.advance? g = some next) :
    ∃ x, item.next? g = some x ∧ next = { item with dot := item.dot + 1 } := by
  cases hx : item.next? g with
  | none =>
    rw [Item.advance?, (atEnd_iff hitem).mpr hx] at h
    cases h
  | some x =>
    rw [Item.advance?_of_next? hx] at h
    cases h
    exact ⟨x, rfl, rfl⟩

theorem Canonical.askable {g : Grammar} {a : Automaton} (hc : Canonical g a) (wf : g.WellFormed)
    (hintroduced : ∀ s ∈ a.states, s.itemSet.Introduced g) : Askable g a where
  index_id := hc.index_id
  belongsTo := hc.belongsTo_grammar wf
  introduced := hintroduced
  moved := fun s hs item hitem next hnext => by
    obtain ⟨n, hn⟩ := List.mem_iff_getElem?.mp hs
    obtain ⟨x, hx, rfl⟩ := next?_of_advance? (hc.belongsTo wf hn item hitem) hnext
    exact hc.moved_mem_items wf hn hitem hx

section FollowSource

variable {g : Grammar} {a : Automaton} {s : State} {position : Nat} {item : Item}
  (hitem : s.itemSet.items[position]? = some item) (hbelongs : item.BelongsTo g)

include hitem hbelongs

/-- For an item that the closure added, the one that introduced it is asked. -/
theorem followSourceIn_added (hadded : item.dot = 0 ∧ s.itemSet.isKernel position = false)
    {earlier : Nat} (hfound : Checked.introducer g (item.left g)
      (s.itemSet.items.take position) = .ok (some earlier)) :
    a.followSourceIn g s position = a.followSourceIn g s earlier := by
  rw [followSourceIn]
  split
  · rename_i hnone
    rw [hitem] at hnone
    cases hnone
  · rename_i item' hitem'
    cases hitem.symm.trans hitem'
    rw [Checked.left_eq_ok hbelongs]
    show (if item.dot = 0 ∧ s.itemSet.isKernel position = false then _ else _) = _
    rw [if_pos hadded]
    split
    · rename_i earlier' hfound'
      cases hfound.symm.trans hfound'
      rfl
    · rename_i hno
      cases hfound.symm.trans hno
    · rename_i e hno
      cases hfound.symm.trans hno

/-- For any other item the place of its dot decides. -/
theorem followSourceIn_kept (hkept : ¬(item.dot = 0 ∧ s.itemSet.isKernel position = false)) :
    a.followSourceIn g s position = match item.advance? g with
      | none => .ok (.ofSymbol (item.left g))
      | some next => FollowSource.atSite <$> a.locate g next := by
  rw [followSourceIn]
  split
  · rename_i hnone
    rw [hitem] at hnone
    cases hnone
  · rename_i item' hitem'
    cases hitem.symm.trans hitem'
    rw [Checked.left_eq_ok hbelongs, Checked.advance_eq_ok hbelongs]
    show (if item.dot = 0 ∧ s.itemSet.isKernel position = false then _ else _) = _
    rw [if_neg hkept]
    cases item.advance? g with
    | none => rfl
    | some next =>
      show a.locate g next >>= _ = _ <$> a.locate g next
      cases a.locate g next <;> rfl

end FollowSource

namespace Askable

variable {g : Grammar} {a : Automaton} (h : Askable g a)

include h

/-- The search goes back from item to item, so the induction is on the position. -/
theorem exists_followSourceIn_ok {s : State} (hs : s ∈ a.states) {position : Nat} {item : Item}
    (hitem : s.itemSet.items[position]? = some item) :
    ∃ source, a.followSourceIn g s position = .ok source ∧
      ∀ site, source = .atSite site → ∃ next, a.item site = .ok next := by
  induction position using Nat.strongRecOn generalizing item with
  | ind position ih =>
    have hbelongs := h.belongsTo s hs item (List.mem_of_getElem? hitem)
    by_cases hadded : item.dot = 0 ∧ s.itemSet.isKernel position = false
    · obtain ⟨earlier, parent, hfound, hlt, hparent⟩ :=
        (h.introduced s hs).exists_introducer (h.belongsTo s hs) hitem hadded.2
      rw [followSourceIn_added hitem hbelongs hadded hfound]
      exact ih earlier hlt hparent
    · rw [followSourceIn_kept hitem hbelongs hadded]
      cases hnext : item.advance? g with
      | none =>
        refine ⟨_, rfl, fun site e => ?_⟩
        cases e
      | some next =>
        obtain ⟨site, hsite⟩ :=
          exists_locate_ok (h.moved s hs item (List.mem_of_getElem? hitem) next hnext)
        refine ⟨.atSite site, congrArg (FollowSource.atSite <$> ·) hsite, ?_⟩
        rintro site' e
        cases e
        exact ⟨next, item_of_locate h.index_id hsite⟩

theorem exists_followSource_ok {site : Site} {item : Item} (hitem : a.item site = .ok item) :
    ∃ source, a.followSource g site = .ok source ∧
      ∀ site', source = .atSite site' → ∃ next, a.item site' = .ok next := by
  obtain ⟨s, hs, hposition⟩ := item_eq_ok.mp hitem
  obtain ⟨source, hsource, hnext⟩ := h.exists_followSourceIn_ok (List.mem_of_getElem? hs) hposition
  have hstate : a.state site.state = .ok s := by
    rw [Automaton.state, state?, hs]
  exact ⟨source, bind_eq_ok.mpr ⟨s, hstate, hsource⟩, hnext⟩

end Askable
end Automaton

namespace Session

variable {g : Grammar} {n : Session}

/-- Whatever a session remembers, it answers for an item that is there. -/
theorem exists_firstSet_ok {site : Site} {item : Item} (hitem : n.automaton.item site = .ok item) :
    ∃ set, (n.firstSet g site).1 = .ok set := by
  unfold firstSet
  cases n.firsts.lookup site with
  | some set => exact ⟨set, rfl⟩
  | none =>
    rw [hitem]
    exact ⟨_, rfl⟩

theorem exists_followSet_ok (h : n.automaton.Askable g) {site : Site} {item : Item}
    (hitem : n.automaton.item site = .ok item) : ∃ set, (n.followSet g site).1 = .ok set := by
  obtain ⟨source, hsource, hnext⟩ := h.exists_followSource_ok hitem
  unfold followSet
  rw [hsource]
  cases source with
  | ofSymbol x => exact ⟨_, rfl⟩
  | atSite site' =>
    obtain ⟨next, hnext⟩ := hnext site' rfl
    exact exists_firstSet_ok hnext

end Session
end ShiftReduce
