/-
What can follow is in the follow sets.

`Behind` says which input can stand behind a nonterminal while a sentence is
parsed, following the items of an automaton outwards until the end of the input.
It is a relation on input and not on single symbols, because lookaheads ask for
the symbol after the next as well.  The follow table is only about the first
symbol, and `mem_followTable` is what it is good for: it misses none.
-/
import ShiftReduce.Automaton.Survey
import ShiftReduce.Proofs.Grammar.First

namespace ShiftReduce
namespace Automaton

/-- This input can stand behind the symbol: it is made up of what the rest of an
item derives in which the symbol stands before the dot, and of what stands behind
the left side of that item.  Behind everything the input ends. -/
inductive Behind (g : Grammar) (a : Automaton) : SymbolId → List SymbolId → Prop
  | accept : Behind g a .accept [.endMarker]
  | step {item : Item} {x : SymbolId} {f : Forest} {v : List SymbolId} :
      item ∈ a.items g → item.previous? g = some x → f.Valid g → f.roots g = item.rest g →
        (∀ y ∈ f.yield, g.isTerminal y = true) → Behind g a (item.left g) v →
          Behind g a x (f.yield ++ v)

/-- This input can stand at the dot of the item. -/
def Ahead (g : Grammar) (a : Automaton) (item : Item) (v : List SymbolId) : Prop :=
  ∃ (f : Forest) (v' : List SymbolId), f.Valid g ∧ f.roots g = item.rest g ∧
    (∀ y ∈ f.yield, g.isTerminal y = true) ∧ Behind g a (item.left g) v' ∧ v = f.yield ++ v'

theorem Ahead.behind {g : Grammar} {a : Automaton} {item : Item} {x : SymbolId}
    {v : List SymbolId} (h : Ahead g a item v) (hitem : item ∈ a.items g)
    (hx : item.previous? g = some x) : Behind g a x v := by
  obtain ⟨f, v', hvalid, hroots, hyield, hbehind, rfl⟩ := h
  exact .step hitem hx hvalid hroots hyield hbehind

theorem Behind.ahead {g : Grammar} {a : Automaton} {item : Item} {v : List SymbolId}
    (h : Behind g a (item.left g) v) (hend : item.atEnd g = true) : Ahead g a item v := by
  refine ⟨.nil, v, trivial, ?_, fun y hy => absurd hy List.not_mem_nil, h, rfl⟩
  rw [Item.atEnd, beq_iff_eq] at hend
  rw [Item.rest, hend, List.drop_length]
  rfl

theorem mem_of_previous? {g : Grammar} {item : Item} {x : SymbolId}
    (h : item.previous? g = some x) : x ∈ g.rightOf item.rule := by
  unfold Item.previous? at h
  split at h
  · cases h
  · exact List.mem_of_getElem? h

theorem belongsTo_of_mem_items {g : Grammar} (wf : g.WellFormed) {a : Automaton} {item : Item}
    (h : item ∈ a.items g) : item.BelongsTo g :=
  (Grammar.mem_items (Nat.le_of_lt wf.rules_lt)).mp (List.mem_filter.mp h).1

/-- There is always something behind, the end of the input at least. -/
theorem Behind.exists_cons {g : Grammar} (wf : g.WellFormed) {a : Automaton} {x : SymbolId}
    {v : List SymbolId} (h : Behind g a x v) :
    ∃ (t : SymbolId) (rest : List SymbolId), v = t :: rest ∧ g.isTerminal t = true := by
  induction h with
  | accept => exact ⟨.endMarker, [], rfl, wf.isTerminal_endMarker⟩
  | @step item x f v _ _ _ _ hyield _ ih =>
    cases hf : f.yield with
    | nil => exact ih
    | cons t rest => exact ⟨t, rest ++ v, rfl, hyield t (by rw [hf]; exact List.mem_cons_self)⟩

theorem Ahead.exists_cons {g : Grammar} (wf : g.WellFormed) {a : Automaton} {item : Item}
    {v : List SymbolId} (h : Ahead g a item v) :
    ∃ (t : SymbolId) (rest : List SymbolId), v = t :: rest ∧ g.isTerminal t = true := by
  obtain ⟨f, v', _, _, hyield, hbehind, rfl⟩ := h
  cases hf : f.yield with
  | nil => exact hbehind.exists_cons wf
  | cons t rest => exact ⟨t, rest ++ v', rfl, hyield t (by rw [hf]; exact List.mem_cons_self)⟩

theorem Behind.getLast?_eq {g : Grammar} {a : Automaton} {x : SymbolId} {v : List SymbolId}
    (h : Behind g a x v) : v.getLast? = some .endMarker := by
  induction h with
  | accept => rfl
  | step _ _ _ _ _ _ ih => rw [List.getLast?_append, ih, Option.some_or]

theorem Behind.eq_of_accept {g : Grammar} (wf : g.WellFormed) {a : Automaton}
    {v : List SymbolId} (h : Behind g a .accept v) : v = [.endMarker] := by
  generalize hx : SymbolId.accept = x at h
  cases h with
  | accept => rfl
  | step _ hprevious _ _ _ _ =>
    exact absurd hx.symm (wf.mem_rightOf (mem_of_previous? hprevious)).2.2

/-! ## The follow table -/

theorem follower?_eq_some {g : Grammar} {item follower : Item} {x : SymbolId} :
    item.follower? g = some (x, follower) ↔
      follower = item ∧ item.previous? g = some x ∧ g.isNonterminal x = true := by
  unfold Item.follower?
  constructor
  · intro h
    split at h
    · rename_i y hy
      split at h
      · rename_i hn
        cases h
        exact ⟨rfl, hy, hn⟩
      · cases h
    · cases h
  · rintro ⟨rfl, hx, hn⟩
    simp only [hx, hn, if_true]

theorem mem_followers {g : Grammar} {a : Automaton} {x : SymbolId} {item : Item} :
    (x, item) ∈ a.followers g ↔
      item ∈ a.items g ∧ item.previous? g = some x ∧ g.isNonterminal x = true := by
  rw [followers, List.mem_filterMap]
  constructor
  · rintro ⟨item', hitem, h⟩
    obtain ⟨rfl, hrest⟩ := follower?_eq_some.mp h
    exact ⟨hitem, hrest⟩
  · rintro ⟨hitem, hrest⟩
    exact ⟨item, hitem, follower?_eq_some.mpr ⟨rfl, hrest⟩⟩

theorem firstWith_below {g : Grammar} (wf : g.WellFormed) {follow : List SymbolSet}
    (h : SymbolTable.Below g.symbols.length follow) (item : Item) :
    (item.firstWith g follow).Below g.symbols.length := by
  have hfirst := wf.sequenceFirst_below (item.rest g)
  simp only [Item.firstWith]
  split
  · split
    · exact hfirst.insert (Grammar.lt_of_isTerminal wf.isTerminal_endMarker)
    · exact hfirst.union (h.setAt _)
  · exact hfirst

theorem followTable_saturated {g : Grammar} (wf : g.WellFormed) (a : Automaton) :
    SymbolTable.Below g.symbols.length (a.followTable g) ∧
      ∀ follower ∈ a.followers g, addFollow g (a.followTable g) follower = a.followTable g := by
  refine saturate_foldl_fixed SymbolTable.weight (g.symbols.length * g.symbols.length)
    (fun table follower _ h => h.modify_union _ (firstWith_below wf h _))
    (fun table follower _ _ => SymbolTable.modify_union table _ _)
    (fun table h => h.weight_le) ⟨List.length_replicate, fun s hs => ?_⟩
  rw [List.eq_of_mem_replicate hs]
  exact SymbolSet.Below.empty _

/-- What stands at a dot is in the first set of the item, given that follow sets
are right about its left side. -/
theorem mem_firstWith {g : Grammar} (wf : g.WellFormed) {a : Automaton} {follow : List SymbolSet}
    {item : Item} {t : SymbolId} {v v' : List SymbolId} {f : Forest} (hvalid : f.Valid g)
    (hroots : f.roots g = item.rest g) (hyield : ∀ y ∈ f.yield, g.isTerminal y = true)
    (hbehind : Behind g a (item.left g) v') (he : f.yield ++ v' = t :: v)
    (hfollow : item.left g ≠ .accept → v' = t :: v → t ∈ setAt follow (item.left g)) :
    t ∈ item.firstWith g follow := by
  simp only [Item.firstWith]
  cases hf : f.yield with
  | nil =>
    rw [hf] at he
    have he : v' = t :: v := he
    have hnullable := Forest.sequenceNullable_roots wf hvalid hf
    rw [hroots] at hnullable
    rw [if_pos hnullable]
    split
    · rename_i haccept
      rw [haccept] at hbehind
      have hend := hbehind.eq_of_accept wf
      rw [he] at hend
      cases hend
      exact SymbolSet.mem_insert.mpr (Or.inl rfl)
    · rename_i haccept
      exact SymbolSet.mem_union.mpr (Or.inr (hfollow haccept he))
  | cons t' rest =>
    rw [hf] at he
    have ht : g.isTerminal t' = true := hyield t' (by rw [hf]; exact List.mem_cons_self)
    have hfirst := Forest.mem_sequenceFirst_roots wf hvalid ht hf
    rw [hroots, (List.cons.inj he).1] at hfirst
    split
    · split
      · exact SymbolSet.mem_insert.mpr (Or.inr hfirst)
      · exact SymbolSet.mem_union.mpr (Or.inl hfirst)
    · exact hfirst

/-- The follow set of a nonterminal has all that can stand behind it. -/
theorem Behind.mem_followTable {g : Grammar} (wf : g.WellFormed) {a : Automaton} {x t : SymbolId}
    {w v : List SymbolId} (h : Behind g a x w) (hx : g.isNonterminal x = true) (hne : x ≠ .accept)
    (hw : w = t :: v) : t ∈ setAt (a.followTable g) x := by
  induction h generalizing t v with
  | accept => exact absurd rfl hne
  | @step item x f v' hitem hprevious hvalid hroots hyield hbehind ih =>
    have hfixed := (followTable_saturated wf a).2 (x, item)
      (mem_followers.mpr ⟨hitem, hprevious, hx⟩)
    refine SymbolTable.subset_of_modify_eq ?_ hfixed ?_
    · rw [(followTable_saturated wf a).1.length_eq]
      exact Grammar.lt_of_isNonterminal hx
    · refine mem_firstWith wf hvalid hroots hyield hbehind hw fun hleft he => ?_
      exact ih (wf.isNonterminal_leftOf (belongsTo_of_mem_items wf hitem).1) hleft he

theorem Ahead.mem_firstWith {g : Grammar} (wf : g.WellFormed) {a : Automaton} {item : Item}
    {t : SymbolId} {v : List SymbolId} (h : Ahead g a item (t :: v))
    (hitem : item.rule.index < g.rules.length) : t ∈ item.firstWith g (a.followTable g) := by
  obtain ⟨f, v', hvalid, hroots, hyield, hbehind, he⟩ := h
  refine Automaton.mem_firstWith wf hvalid hroots hyield hbehind he.symm fun hleft hv' => ?_
  exact hbehind.mem_followTable wf (wf.isNonterminal_leftOf hitem) hleft hv'

end Automaton
end ShiftReduce
