/-
The construction of an automaton is never refused.

A visit asks for the rules of items of the state, for the state itself before and after its successors
are added, and for where each symbol behind a dot leads.  `Proper` answers for the first: all items
belong to the grammar.  The state is there because states are only added, and what it leads to because
the symbols that successors are made for are those behind its dots.

The number of a state is its position only as long as there are handles enough.  That is so at every
visit if it is so in the end.
-/
import ShiftReduce.Checked.Construction
import ShiftReduce.Proofs.Automaton.Population
import ShiftReduce.Proofs.Checked.Item

namespace ShiftReduce
namespace Checked

variable {g : Grammar} (wf : g.WellFormed)

/-! ## Successors -/

theorem nextSymbols_eq_ok {items : List Item} (h : ∀ item ∈ items, item.BelongsTo g) :
    nextSymbols g items = .ok (Automaton.nextSymbols g items) := by
  refine bind_eq_ok.mpr ⟨_, mapM_eq_ok_map fun item hitem => next_eq_ok (h item hitem), ?_⟩
  rw [Automaton.nextSymbols, List.filterMap_map]
  rfl

theorem movedOver_eq_ok {x : SymbolId} {item : Item} (h : item.BelongsTo g) :
    movedOver g x item = .ok (if item.next? g == some x then item.advance? g else none) := by
  refine bind_eq_ok.mpr ⟨_, next_eq_ok h, ?_⟩
  by_cases hx : item.next? g = some x
  · rw [if_pos hx, advance_eq_ok h, hx, beq_self_eq_true]
    rfl
  · rw [if_neg hx, beq_eq_false_iff_ne.mpr hx]
    rfl

include wf

theorem startSet_eq_ok : startSet g = .ok (Automaton.startSet g) := by
  have hrules : ∀ r ∈ g.rulesFor .accept, Item.make g r 0 = .ok ⟨r, 0⟩ := by
    intro r hr
    obtain ⟨entry, _, hentry, _⟩ := exists_rule_ok (Grammar.index_lt_of_mem_rulesFor hr)
    rw [Item.make, hentry]
    exact if_pos (Nat.zero_le _)
  refine bind_eq_ok.mpr ⟨_, mapM_eq_ok_map hrules, close_eq_ok wf fun item hitem => ?_⟩
  obtain ⟨r, hr, rfl⟩ := List.mem_map.mp (ItemSet.mem_items_ofList.mp hitem)
  exact ⟨Grammar.index_lt_of_mem_rulesFor hr, Nat.zero_le _⟩

theorem successor_eq_ok {items : List Item} (h : ∀ item ∈ items, item.BelongsTo g)
    (x : SymbolId) : successor g items x = .ok (Automaton.successor g items x) := by
  refine bind_eq_ok.mpr ⟨_, mapM_eq_ok_map fun item hitem => movedOver_eq_ok (h item hitem), ?_⟩
  have hmoved : ((items.map fun item => if item.next? g == some x then item.advance? g else none
      ).filterMap id) = (items.filter fun item => item.next? g == some x).filterMap
        (Item.advance? g) := by
    rw [List.filterMap_map, List.filterMap_filter]
    rfl
  rw [hmoved]
  refine close_eq_ok wf fun item hitem => ?_
  obtain ⟨i, hi, hadvance⟩ := List.mem_filterMap.mp (ItemSet.mem_items_ofList.mp hitem)
  exact belongsTo_of_advance? (h i (List.mem_filter.mp hi).1) hadvance

/-! ## One visit -/

/-- The transitions of an item are made if its symbol leads somewhere. -/
theorem outgoing_eq_ok {targets : List (SymbolId × StateId)} {origin : Site} {item : Item}
    (h : item.BelongsTo g)
    (htargets : ∀ x, item.next? g = some x → ∃ id, targets.lookup x = some id) :
    outgoing g targets origin item = .ok (Automaton.outgoing g targets origin item) := by
  refine bind_eq_ok.mpr ⟨_, next_eq_ok h, ?_⟩
  rw [Automaton.outgoing]
  cases hx : item.next? g with
  | some x =>
    obtain ⟨id, hid⟩ := htargets x hx
    refine bind_eq_ok.mpr ⟨id, Failure.orForeign_eq_ok.mpr hid,
      bind_eq_ok.mpr ⟨_, isTerminal_eq_ok (lt_of_next? wf hx), ?_⟩⟩
    simp only [hid]
    split
    · rfl
    · rfl
  | none =>
    refine bind_eq_ok.mpr ⟨_, atEnd_eq_ok h, bind_eq_ok.mpr ⟨_, left_eq_ok h, ?_⟩⟩
    simp only
    split
    · rfl
    · refine bind_eq_ok.mpr ⟨_, reduces_eq_ok h, ?_⟩
      split
      · rfl
      · rfl

omit wf in
open Automaton (addStates successorsOf) in
/-- Every symbol behind a dot of a state leads to one of its successors. -/
theorem exists_target (a : Automaton) {s : State} {item : Item} (hitem : item ∈ s.itemSet.items)
    {x : SymbolId} (hx : item.next? g = some x) :
    ∃ id, (addStates (successorsOf g s) a).1.lookup x = some id := by
  have hkeys : (addStates (successorsOf g s) a).1.map Prod.fst =
      Automaton.nextSymbols g s.itemSet.items :=
    (Automaton.map_fst_addStates _ a).trans (Automaton.map_fst_successorsOf g s)
  have hmem : x ∈ (addStates (successorsOf g s) a).1.map Prod.fst :=
    hkeys ▸ Automaton.mem_nextSymbols.mpr ⟨_, hitem, hx⟩
  obtain ⟨⟨_, id⟩, htarget, rfl⟩ := List.mem_map.mp hmem
  exact ⟨id, Automaton.lookup_eq_some_of_mem (hkeys ▸ nodup_eraseDups _) htarget⟩

open Automaton (Proper addStates successorsOf transitionsOf) in
/-- The state that is visited and all that it leads to are there. -/
theorem visit_eq_ok {a : Automaton} (p : Proper g a) {i : Nat} (hi : i < a.size)
    (hsize : (a.visit g i).size ≤ handleSpan) : visit g a i = .ok (a.visit g i) := by
  have hs : a.states[i]? = some a.states[i] := List.getElem?_eq_getElem hi
  generalize a.states[i] = s at hs
  have hbelongs := p.belongs s (List.mem_of_getElem? hs)
  have hindex : (Handle.ofNat i : StateId).index = i :=
    Handle.index_ofNat_of_lt (Nat.lt_of_lt_of_le hi
      ((Automaton.extends_visit g a i).size_le.trans hsize))
  -- the state is found again once its successors have been added
  obtain ⟨s', hs', _⟩ := Automaton.extends_addStates (successorsOf g s) a i s hs
  have found : ∀ {b : Automaton} {s : State}, b.states[i]? = some s →
      b.state (Handle.ofNat i) = .ok s := by
    intro b s hs
    rw [Automaton.state, Automaton.state?, hindex, hs]
  have hsuccessors : (Automaton.nextSymbols g s.itemSet.items).mapM
      (fun x => do return (x, ← successor g s.itemSet.items x)) = .ok (successorsOf g s) :=
    mapM_eq_ok_map fun x _ => bind_eq_ok.mpr ⟨_, successor_eq_ok wf hbelongs x, rfl⟩
  have htransitions : s.itemSet.items.zipIdx.mapM (fun entry =>
      outgoing g (addStates (successorsOf g s) a).1 ⟨Handle.ofNat i, entry.2⟩ entry.1) =
        .ok (s.itemSet.items.zipIdx.map fun entry =>
          Automaton.outgoing g (addStates (successorsOf g s) a).1 ⟨Handle.ofNat i, entry.2⟩
            entry.1) := by
    refine mapM_eq_ok_map fun entry hentry => ?_
    have hitem := List.mem_of_getElem? (List.mem_zipIdx_iff_getElem?.mp hentry)
    exact outgoing_eq_ok wf (hbelongs _ hitem) fun x hx => exists_target a hitem hx
  refine bind_eq_ok.mpr ⟨s, found hs, bind_eq_ok.mpr ⟨_, nextSymbols_eq_ok hbelongs,
    bind_eq_ok.mpr ⟨_, hsuccessors, bind_eq_ok.mpr ⟨_, htransitions,
      bind_eq_ok.mpr ⟨s', found hs', ?_⟩⟩⟩⟩⟩
  rw [Automaton.visit_eq hs, Automaton.addAt, List.modify_eq_set_getElem?, hs',
    ← List.flatMap_def, ← transitionsOf]
  show Except.ok (Automaton.mk _) = _
  rw [hindex]
  rfl

/-! ## All visits -/

open Automaton (Proper) in
theorem populateFrom_eq_ok {bound i : Nat} {a : Automaton} (p : Proper g a)
    (hsize : (Automaton.populateFrom g bound i a).size ≤ handleSpan) :
    populateFrom g bound i a = .ok (Automaton.populateFrom g bound i a) := by
  induction bound generalizing i a with
  | zero => rfl
  | succ bound ih =>
    rw [populateFrom, Automaton.populateFrom]
    rw [Automaton.populateFrom] at hsize
    split
    · rename_i hi
      rw [if_pos hi] at hsize
      have hvisit := (Automaton.extends_populateFrom g bound (i + 1) (a.visit g i)).size_le
      exact bind_eq_ok.mpr ⟨_, visit_eq_ok wf p hi (hvisit.trans hsize), ih (p.visit i) hsize⟩
    · rfl

/-- The automaton of a grammar is built without looking anything up in vain. -/
theorem build_eq_ok (hsize : (Automaton.build g).size ≤ handleSpan) :
    build g = .ok (.build g) :=
  bind_eq_ok.mpr ⟨_, startSet_eq_ok wf,
    populateFrom_eq_ok wf (Automaton.walked_initial g).proper hsize⟩

end Checked
end ShiftReduce
