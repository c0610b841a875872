/-
The construction ends, whatever states it starts from.

The construction visits states by their numbers while the visits add states, so nothing in
its text says that it ends.  `Walk` is that loop as it stands, without a bound on the number of
visits: a visit goes to the state that the handle of the position points at, and cannot be made
if there is no such state or if one of its items has no place in the grammar.

`Proper` is what every visit keeps up.  As no two states have the same items and all items belong
to the grammar, there are never more states than sets of items, which is also a bound on the
positions that are reached: `Proper.exists_walk`.  For that it makes no difference whether there are
more states than handles.  Only while every position is a handle does the walk go to the states in
their order, and then it finds what `populate` finds, whose bound plays no part
(`Walk.eq_populateFrom`, `walk_populateFrom`).
-/
import ShiftReduce.Proofs.Automaton.Population
import ShiftReduce.Proofs.Saturation

namespace ShiftReduce

namespace Grammar

/-- The number of items of a grammar: for each rule one more than its right side is long. -/
def itemCount (g : Grammar) : Nat :=
  g.rules.foldl (fun count rule => count + (rule.right.length + 1)) 0

theorem length_items (g : Grammar) : g.items.length = g.itemCount := by
  have run : ∀ (rules : List Rule) (i count : Nat),
      rules.foldl (fun count rule => count + (rule.right.length + 1)) count =
        count + ((rules.zipIdx i).flatMap fun entry =>
          (List.range (entry.1.right.length + 1)).map fun dot =>
            (⟨Handle.ofNat entry.2, dot⟩ : Item)).length := by
    intro rules
    induction rules with
    | nil => intro i count; rfl
    | cons rule rest ih =>
      intro i count
      rw [List.foldl_cons, ih (i + 1), List.zipIdx_cons, List.flatMap_cons, List.length_append,
        List.length_map, List.length_range]
      exact Nat.add_assoc _ _ _
  rw [items, itemCount, run g.rules 0 0, Nat.zero_add]

end Grammar

namespace Automaton

/-! ## Where the construction can start -/

/-- The automaton that comes of adding states for some item sets, one after the other. -/
def ofSets (sets : List ItemSet) : Automaton :=
  sets.foldl (fun a set => (a.addState set).2) .empty

theorem Proper.ofSets {g : Grammar} {sets : List ItemSet}
    (h : ∀ set ∈ sets, ∀ item ∈ set.items, item.BelongsTo g) : Proper g (ofSets sets) :=
  foldl_invariant (fun _ set hset p => p.addState (h set hset)) (Proper.empty g)

/-- The first state of a construction is such a start. -/
theorem initial_eq_ofSets (g : Grammar) : initial g = ofSets [startSet g] := rfl

/-! ## The loop without a bound -/

/-- Visits from a position on, as long as there are states.  The state that is visited is the one
that the handle of the position points at, and its items have to belong to the grammar. -/
inductive Walk (g : Grammar) : Nat → Automaton → Automaton → Prop
  | done {position : Nat} {a : Automaton} : a.size ≤ position → Walk g position a a
  | visit {position : Nat} {a b : Automaton} {s : State} : position < a.size →
      a.state (Handle.ofNat position) = .ok s → (∀ item ∈ s.itemSet.items, item.BelongsTo g) →
      Walk g (position + 1) (a.visit g (Handle.ofNat position : StateId).index) b →
      Walk g position a b

/-- A walk has one outcome. -/
theorem Walk.unique {g : Grammar} {position : Nat} {a b c : Automaton} (hb : Walk g position a b)
    (hc : Walk g position a c) : b = c := by
  induction hb with
  | done hend =>
    cases hc with
    | done _ => rfl
    | visit hlt _ _ _ => omega
  | visit hlt _ _ _ ih =>
    cases hc with
    | done hend => omega
    | visit _ _ _ hc => exact ih hc

theorem Walk.extends {g : Grammar} {position : Nat} {a b : Automaton} (h : Walk g position a b) :
    b.Extends a := by
  induction h with
  | done _ => exact Extends.refl _
  | visit _ _ _ _ ih => exact ih.trans (extends_visit g _ _)

/-- Along a walk states keep their items apart, and their items belong to the grammar. -/
theorem Walk.proper {g : Grammar} {position : Nat} {a b : Automaton} (h : Walk g position a b)
    (p : Proper g a) : Proper g b := by
  induction h with
  | done _ => exact p
  | visit _ _ _ _ ih => exact ih (p.visit _)

/-- While there are states left the one to be visited is found, even where its number is not its
position. -/
theorem Proper.exists_state {g : Grammar} {a : Automaton} (p : Proper g a) {position : Nat}
    (h : position < a.size) : ∃ s : State, a.state (Handle.ofNat position) = .ok s ∧
      ∀ item ∈ s.itemSet.items, item.BelongsTo g := by
  have hlt : position % handleSpan < a.states.length :=
    Nat.lt_of_le_of_lt (Nat.mod_le position handleSpan) h
  refine ⟨a.states[position % handleSpan], ?_, p.belongs _ (List.getElem_mem hlt)⟩
  rw [state, state?, Handle.index_ofNat, List.getElem?_eq_getElem hlt]

/-- Every walk can be taken to its end.  The induction is on how many more states there can be than
positions that are behind. -/
theorem Proper.exists_walk {g : Grammar} {a : Automaton} (p : Proper g a) (position : Nat) :
    ∃ b, Walk g position a b := by
  induction hleft : Nat.pow 2 g.items.length - position generalizing a position with
  | zero =>
    have hle := p.size_le
    exact ⟨a, .done (by omega)⟩
  | succ left ih =>
    by_cases hlt : position < a.size
    · obtain ⟨s, hs, hbelongs⟩ := p.exists_state hlt
      obtain ⟨b, hb⟩ := ih (p.visit (Handle.ofNat position : StateId).index) (position + 1)
        (by omega)
      exact ⟨b, .visit hlt hs hbelongs hb⟩
    · exact ⟨a, .done (Nat.le_of_not_lt hlt)⟩

/-! ## The bound plays no part -/

/-- A walk over no more states than there are handles finds what the bounded visits find. -/
theorem Walk.eq_populateFrom {g : Grammar} {bound position : Nat} {a b : Automaton}
    (h : Walk g position a b) (p : Proper g a) (hsize : b.size ≤ handleSpan)
    (hbound : Nat.pow 2 g.items.length ≤ position + bound) :
    b = populateFrom g bound position a := by
  induction h generalizing bound with
  | done hend =>
    cases bound with
    | zero => rfl
    | succ bound => rw [populateFrom, if_neg (Nat.not_lt_of_le hend)]
  | @visit position a b s hlt _ _ hwalk ih =>
    have hindex : (Handle.ofNat position : StateId).index = position := by
      have hgrown := ((extends_visit g a (Handle.ofNat position : StateId).index).size_le).trans
        hwalk.extends.size_le
      exact Handle.index_ofNat_of_lt (by omega)
    cases bound with
    | zero =>
      have hle := p.size_le
      omega
    | succ bound =>
      have hrest : b = populateFrom g bound (position + 1)
          (a.visit g (Handle.ofNat position : StateId).index) :=
        ih (p.visit _) hsize (by omega)
      rw [populateFrom, if_pos hlt, hrest, hindex]

/-- Where the bounded visits find no more states than there are handles, they are a walk. -/
theorem walk_populateFrom {g : Grammar} {bound position : Nat} {a : Automaton} (p : Proper g a)
    (hsize : (populateFrom g bound position a).size ≤ handleSpan)
    (hbound : Nat.pow 2 g.items.length ≤ position + bound) :
    Walk g position a (populateFrom g bound position a) := by
  induction bound generalizing position a with
  | zero => exact .done (Nat.le_trans p.size_le hbound)
  | succ bound ih =>
    rw [populateFrom] at hsize ⊢
    by_cases hlt : position < a.size
    · rw [if_pos hlt] at hsize ⊢
      have hgrown : a.size ≤ handleSpan := ((extends_populateFrom g bound (position + 1) _).trans
        (extends_visit g a position)).size_le.trans hsize
      have hindex : (Handle.ofNat position : StateId).index = position :=
        Handle.index_ofNat_of_lt (by omega)
      obtain ⟨s, hs, hbelongs⟩ := p.exists_state hlt
      have hwalk := ih (p.visit position) hsize (by omega)
      refine .visit hlt hs hbelongs ?_
      rw [hindex]
      exact hwalk
    · rw [if_neg hlt]
      exact .done (Nat.le_of_not_lt hlt)

/-- From any states whose items belong to the grammar, the first state of a construction among
them, the visits come to an end, and there are then no more states than sets of items.  As long as
there are fewer states than handles, the end is what `populate` finds. -/
theorem populate_terminates {g : Grammar} {sets : List ItemSet}
    (hsets : ∀ set ∈ sets, ∀ item ∈ set.items, item.BelongsTo g) :
    (∃ b, Walk g 0 (ofSets sets) b) ∧
    (∀ b, Walk g 0 (ofSets sets) b → Proper g b ∧ b.size ≤ Nat.pow 2 g.itemCount) ∧
    (∀ b, b.size < handleSpan →
      (Walk g 0 (ofSets sets) b ↔ b = (ofSets sets).populate g)) ∧
    initial g = ofSets [startSet g] ∧ (∀ item ∈ (startSet g).items, item.BelongsTo g) := by
  have p := Proper.ofSets hsets
  have hbound : Nat.pow 2 g.items.length ≤ 0 + Nat.pow 2 g.items.length :=
    Nat.le_of_eq (Nat.zero_add _).symm
  refine ⟨p.exists_walk 0, fun b hwalk => ?_, fun b hsize => ?_, initial_eq_ofSets g,
    belongsTo_of_mem_startSet⟩
  · have hproper := hwalk.proper p
    exact ⟨hproper, g.length_items ▸ hproper.size_le⟩
  · constructor
    · exact fun hwalk => hwalk.eq_populateFrom p (Nat.le_of_lt hsize) hbound
    · rintro rfl
      exact walk_populateFrom p (Nat.le_of_lt hsize) hbound

/-- `S -> • b S` alone, then the same with `A -> b •` before it, and the first set once more: no set
is closed or the start of the grammar, and what comes behind `b` leads back to itself. -/
theorem populate_terminates_unclosed :
    let g := ItemSet.mutualGrammar
    let first : ItemSet := .ofList [⟨Handle.ofNat 2, 0⟩]
    let second : ItemSet := .ofList [⟨Handle.ofNat 3, 1⟩, ⟨Handle.ofNat 2, 0⟩]
    let a := ofSets [first, second, first]
    (∀ set ∈ [first, second, first], ∀ item ∈ set.items, item.BelongsTo g) ∧
      a.size = 2 ∧ (∃ b, Walk g 0 a b) ∧ g.itemCount = 11 ∧ (a.populate g).size = 6 ∧
      Walk g 0 a (a.populate g) ∧ (a.populate g).size ≤ Nat.pow 2 g.itemCount := by
  intro g first second a
  have hsets : ∀ set ∈ [first, second, first], ∀ item ∈ set.items, item.BelongsTo g := by decide
  obtain ⟨hexists, hsmall, hpopulate, -⟩ := populate_terminates hsets
  have hsize : (a.populate g).size = 6 := by decide +kernel
  have hwalk := (hpopulate (a.populate g) (by rw [hsize]; decide)).mpr rfl
  exact ⟨hsets, by decide, hexists, by decide, hsize, hwalk, (hsmall _ hwalk).2⟩

end Automaton
end ShiftReduce
