/-
Sweeps that only ever add.

The analyses of a grammar and of an automaton saturate a set of symbols, or a
table with one such set for each symbol, by sweeps over a list of rules or items.
Each entry of the list adds something or does nothing, and what can be added is
limited by the number of symbols.  `saturate_foldl_fixed` turns that into what the
analyses rely on: in the end no entry of the list has anything to add.

The weight that grows is the size of a set, or the sizes of all sets of a table
taken together.
-/
import ShiftReduce.Grammar.Basic
import Mathlib.Data.List.Nodup
import Mathlib.Data.List.Range

namespace ShiftReduce

section Sweep

variable {α β : Type} {f : α → β → α} {P : α → Prop} {bs : List β} (weight : α → Nat)

theorem foldl_invariant (hP : ∀ a b, b ∈ bs → P a → P (f a b)) {a : α} (ha : P a) :
    P (bs.foldl f a) := by
  induction bs generalizing a with
  | nil => exact ha
  | cons b rest ih =>
    exact ih (fun a c hc => hP a c (List.mem_cons_of_mem b hc)) (hP a b List.mem_cons_self ha)

/-- A sweep leaves everything alone or adds weight; in the first case none of its
steps did anything. -/
theorem foldl_fixed_or_lt (hP : ∀ a b, b ∈ bs → P a → P (f a b))
    (hgrow : ∀ a b, b ∈ bs → P a → f a b = a ∨ weight a < weight (f a b)) {a : α} (ha : P a) :
    (bs.foldl f a = a ∧ ∀ b ∈ bs, f a b = a) ∨ weight a < weight (bs.foldl f a) := by
  induction bs generalizing a with
  | nil => exact Or.inl ⟨rfl, fun b hb => absurd hb List.not_mem_nil⟩
  | cons b rest ih =>
    have hb : b ∈ b :: rest := List.mem_cons_self
    have hrest := ih (fun a c hc => hP a c (List.mem_cons_of_mem b hc))
      (fun a c hc => hgrow a c (List.mem_cons_of_mem b hc)) (hP a b hb ha)
    rw [List.foldl_cons]
    rcases hgrow a b hb ha with e | hlt
    · rw [e] at hrest ⊢
      rcases hrest with ⟨hfold, hall⟩ | hlt
      · exact Or.inl ⟨hfold, List.forall_mem_cons.mpr ⟨e, hall⟩⟩
      · exact Or.inr hlt
    · right
      rcases hrest with ⟨hfold, _⟩ | hlt'
      · rw [hfold]
        exact hlt
      · exact Nat.lt_trans hlt hlt'

/-- Sweeps that can only add so much end where no step adds anything. -/
theorem saturate_foldl_fixed [DecidableEq α] (limit : Nat)
    (hP : ∀ a b, b ∈ bs → P a → P (f a b))
    (hgrow : ∀ a b, b ∈ bs → P a → f a b = a ∨ weight a < weight (f a b))
    (hlimit : ∀ a, P a → weight a ≤ limit) {a : α} (ha : P a) :
    P (saturate (fun a => bs.foldl f a) (limit + 1) a) ∧
      ∀ b ∈ bs, f (saturate (fun a => bs.foldl f a) (limit + 1) a) b =
        saturate (fun a => bs.foldl f a) (limit + 1) a := by
  have step : ∀ a, P a → P (bs.foldl f a) := fun a => foldl_invariant hP
  have hresult := saturate_induction P step (limit + 1) ha
  have hfixed : bs.foldl f (saturate (fun a => bs.foldl f a) (limit + 1) a) =
      saturate (fun a => bs.foldl f a) (limit + 1) a := by
    refine saturate_fixed P (fun a => limit - weight a) step (fun a ha hne => ?_) ha ?_
    · rcases foldl_fixed_or_lt weight hP hgrow ha with ⟨e, _⟩ | hlt
      · exact absurd e hne
      · have := hlimit _ (step a ha)
        show limit - weight (bs.foldl f a) < limit - weight a
        omega
    · show limit - weight a < limit + 1
      omega
  rcases foldl_fixed_or_lt weight hP hgrow hresult with ⟨_, hall⟩ | hlt
  · exact ⟨hresult, hall⟩
  · rw [hfixed] at hlt
    exact absurd hlt (Nat.lt_irrefl _)

/-- The loop that sweeps until no step of a sweep has anything to add, started with one
value, ends with another. -/
inductive Stabilizes (f : α → β → α) (bs : List β) : α → α → Prop
  | done {a : α} : (∀ b ∈ bs, f a b = a) → Stabilizes f bs a a
  | again {a c : α} : bs.foldl f a ≠ a → Stabilizes f bs (bs.foldl f a) c → Stabilizes f bs a c

/-- Where sweeps with a bound on their number end with nothing to add, the bound played no
part. -/
theorem stabilizes_saturate [DecidableEq α] {bound : Nat} {a : α}
    (h : ∀ b ∈ bs, f (saturate (fun a => bs.foldl f a) bound a) b =
      saturate (fun a => bs.foldl f a) bound a) :
    Stabilizes f bs a (saturate (fun a => bs.foldl f a) bound a) := by
  induction bound generalizing a with
  | zero => exact .done h
  | succ bound ih =>
    unfold saturate at h ⊢
    by_cases hstable : bs.foldl f a = a
    · simp only [hstable, if_true] at h ⊢
      exact .done h
    · simp only [hstable, if_false] at h ⊢
      exact .again hstable (ih h)

end Sweep

namespace SymbolSet

/-- All members come before a position in the table of symbols. -/
def Below (n : Nat) (s : SymbolSet) : Prop := ∀ x, x ∈ s → x.index < n

theorem Below.empty (n : Nat) : Below n ∅ := fun x hx => absurd hx (not_mem_empty x)

theorem Below.insert {n : Nat} {s : SymbolSet} {x : SymbolId} (h : Below n s) (hx : x.index < n) :
    Below n (Insert.insert x s) := by
  intro y hy
  rcases mem_insert.mp hy with rfl | hy
  · exact hx
  · exact h y hy

theorem Below.union {n : Nat} {s t : SymbolSet} (hs : Below n s) (ht : Below n t) :
    Below n (s ∪ t) := fun y hy => (mem_union.mp hy).elim (hs y) (ht y)

theorem nodup_members (s : SymbolSet) : s.members.Nodup :=
  s.ascending.imp fun {a b} h e => by
    rw [e] at h
    exact Nat.lt_irrefl _ h

theorem Below.size_le {n : Nat} {s : SymbolSet} (h : Below n s) : s.size ≤ n := by
  have hnodup : (s.members.map Handle.index).Nodup :=
    List.pairwise_map.mpr (s.ascending.imp Nat.ne_of_lt)
  have hsub : ∀ i ∈ s.members.map Handle.index, i ∈ List.range n := by
    intro i hi
    obtain ⟨x, hx, rfl⟩ := List.mem_map.mp hi
    exact List.mem_range.mpr (h x hx)
  have hle := hnodup.length_le_of_subset hsub
  rw [List.length_map, List.length_range] at hle
  exact hle

theorem eq_or_size_lt {s t : SymbolSet} (h : ∀ x, x ∈ s → x ∈ t) : t = s ∨ s.size < t.size := by
  by_cases hsub : ∀ x, x ∈ t → x ∈ s
  · exact Or.inl (ext fun x => ⟨hsub x, h x⟩)
  · right
    obtain ⟨x, hx⟩ := not_forall.mp hsub
    obtain ⟨hxt, hxs⟩ := Classical.not_imp.mp hx
    have hnodup : (x :: s.members).Nodup := List.nodup_cons.mpr ⟨hxs, s.nodup_members⟩
    have hle := hnodup.length_le_of_subset (List.cons_subset.mpr ⟨hxt, h⟩)
    exact hle

end SymbolSet

/-! ## Tables of sets -/

namespace SymbolTable

/-- How many members the sets of a table have. -/
def weight : List SymbolSet → Nat
  | [] => 0
  | s :: rest => s.size + weight rest

/-- One set for each symbol, and no other symbols in them. -/
structure Below (n : Nat) (table : List SymbolSet) : Prop where
  length_eq : table.length = n
  sets : ∀ s ∈ table, s.Below n

theorem weight_le {n : Nat} {table : List SymbolSet} (h : ∀ s ∈ table, s.Below n) :
    weight table ≤ table.length * n := by
  induction table with
  | nil => exact Nat.zero_le _
  | cons s rest ih =>
    have hs := (h s List.mem_cons_self).size_le
    have hrest := ih fun t ht => h t (List.mem_cons_of_mem s ht)
    rw [weight, List.length_cons, Nat.add_mul, Nat.one_mul]
    omega

theorem Below.weight_le {n : Nat} {table : List SymbolSet} (h : Below n table) :
    weight table ≤ n * n := by
  have := SymbolTable.weight_le h.sets
  rw [h.length_eq] at this
  exact this

theorem modify_union (table : List SymbolSet) (i : Nat) (s : SymbolSet) :
    table.modify i (· ∪ s) = table ∨ weight table < weight (table.modify i (· ∪ s)) := by
  induction table generalizing i with
  | nil => exact Or.inl (List.modify_nil _ _)
  | cons t rest ih =>
    cases i with
    | zero =>
      rw [List.modify_zero_cons]
      rcases SymbolSet.eq_or_size_lt (s := t) (t := t ∪ s) fun x hx =>
        SymbolSet.mem_union.mpr (Or.inl hx) with e | hlt
      · exact Or.inl (by rw [e])
      · right
        rw [weight, weight]
        omega
    | succ i =>
      rw [List.modify_succ_cons]
      rcases ih i with e | hlt
      · exact Or.inl (by rw [e])
      · right
        rw [weight, weight]
        omega

theorem Below.modify_union {n : Nat} {table : List SymbolSet} (h : Below n table) (i : Nat)
    {s : SymbolSet} (hs : s.Below n) : Below n (table.modify i (· ∪ s)) := by
  refine ⟨by rw [List.length_modify, h.length_eq], fun t ht => ?_⟩
  obtain ⟨j, hj, rfl⟩ := List.mem_iff_getElem.mp ht
  rw [List.length_modify] at hj
  rw [List.getElem_modify]
  split
  · exact (h.sets _ (List.getElem_mem hj)).union hs
  · exact h.sets _ (List.getElem_mem hj)

theorem Below.setAt {n : Nat} {table : List SymbolSet} (h : Below n table) (x : SymbolId) :
    (setAt table x).Below n := by
  rw [ShiftReduce.setAt]
  cases hx : table[x.index]? with
  | none => exact SymbolSet.Below.empty n
  | some s => exact h.sets s (List.mem_of_getElem? hx)

/-- A step of a sweep adds to one entry of a table. -/
theorem mem_setAt_modify {table : List SymbolSet} {i : Nat} {s : SymbolSet} {x y : SymbolId} :
    y ∈ setAt (table.modify i (· ∪ s)) x ↔
      y ∈ setAt table x ∨ x.index = i ∧ i < table.length ∧ y ∈ s := by
  rw [setAt, setAt, List.getElem?_modify]
  cases ht : table[x.index]? with
  | none =>
    have hlength := List.getElem?_eq_none_iff.mp ht
    refine ⟨Or.inl, fun h => h.resolve_right fun ⟨hi, hlt, _⟩ => ?_⟩
    omega
  | some t =>
    have hlength := (List.getElem?_eq_some_iff.mp ht).1
    show y ∈ (if i = x.index then t ∪ s else t) ↔ y ∈ t ∨ _
    by_cases hi : i = x.index
    · rw [if_pos hi, SymbolSet.mem_union]
      exact or_congr_right ⟨fun hy => ⟨hi.symm, hi ▸ hlength, hy⟩, fun hy => hy.2.2⟩
    · rw [if_neg hi]
      exact (or_iff_left fun hy => hi hy.1.symm).symm

theorem subset_of_modify_eq {table : List SymbolSet} {x : SymbolId} {s : SymbolSet}
    (hx : x.index < table.length) (h : table.modify x.index (· ∪ s) = table) {y : SymbolId}
    (hy : y ∈ s) : y ∈ setAt table x := by
  rw [← h]
  exact mem_setAt_modify.mpr (Or.inr ⟨rfl, hx, hy⟩)

end SymbolTable
end ShiftReduce
