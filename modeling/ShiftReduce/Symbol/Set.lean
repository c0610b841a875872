/-
Sets of symbols.

A set is the ascending list of its members.  The order is part of the type, and
with it each set has exactly one list, so equality of sets is equality of lists
and `ext` turns it into agreement on membership.  Every operation below is
pinned down by one lemma about membership; nothing else about the lists is used
outside this file, apart from their order when a set is printed.
-/
import ShiftReduce.Symbol

namespace ShiftReduce

/-- A finite set of symbols, as the ascending list of its members. -/
structure SymbolSet where
  members : List SymbolId
  ascending : members.Pairwise (fun a b => a.index < b.index)
deriving DecidableEq

namespace SymbolSet

instance : Membership SymbolId SymbolSet := ⟨fun s x => x ∈ s.members⟩

instance (x : SymbolId) (s : SymbolSet) : Decidable (x ∈ s) :=
  inferInstanceAs (Decidable (x ∈ s.members))

theorem mem_def {x : SymbolId} {s : SymbolSet} : x ∈ s ↔ x ∈ s.members := Iff.rfl

instance : EmptyCollection SymbolSet := ⟨⟨[], List.Pairwise.nil⟩⟩

instance : Inhabited SymbolSet := ⟨∅⟩

@[simp] theorem not_mem_empty (x : SymbolId) : ¬ x ∈ (∅ : SymbolSet) := List.not_mem_nil

def isEmpty (s : SymbolSet) : Bool := s.members.isEmpty

def size (s : SymbolSet) : Nat := s.members.length

def contains (s : SymbolSet) (x : SymbolId) : Bool := decide (x ∈ s)

@[simp] theorem contains_iff {s : SymbolSet} {x : SymbolId} : s.contains x = true ↔ x ∈ s :=
  decide_eq_true_iff

/-- Two ascending lists with the same members are the same list. -/
theorem members_eq_of_ascending {a b : List SymbolId}
    (ha : a.Pairwise (fun x y => x.index < y.index))
    (hb : b.Pairwise (fun x y => x.index < y.index))
    (h : ∀ x, x ∈ a ↔ x ∈ b) : a = b := by
  induction a generalizing b with
  | nil =>
    cases b with
    | nil => rfl
    | cons y ys => exact absurd ((h y).mpr List.mem_cons_self) List.not_mem_nil
  | cons x xs ih =>
    cases b with
    | nil => exact absurd ((h x).mp List.mem_cons_self) List.not_mem_nil
    | cons y ys =>
      rw [List.pairwise_cons] at ha hb
      have hxy : x = y := by
        rcases List.mem_cons.mp ((h x).mp List.mem_cons_self) with e | hx
        · exact e
        · rcases List.mem_cons.mp ((h y).mpr List.mem_cons_self) with e | hy
          · exact e.symm
          · have h1 := hb.1 x hx
            have h2 := ha.1 y hy
            omega
      subst hxy
      congr 1
      refine ih ha.2 hb.2 fun z => ?_
      constructor
      · intro hz
        rcases List.mem_cons.mp ((h z).mp (List.mem_cons_of_mem x hz)) with e | hz'
        · have hlt := ha.1 z hz
          rw [e] at hlt
          exact absurd hlt (Nat.lt_irrefl _)
        · exact hz'
      · intro hz
        rcases List.mem_cons.mp ((h z).mpr (List.mem_cons_of_mem x hz)) with e | hz'
        · have hlt := hb.1 z hz
          rw [e] at hlt
          exact absurd hlt (Nat.lt_irrefl _)
        · exact hz'

/-- Sets with the same members are equal. -/
theorem ext {s t : SymbolSet} (h : ∀ x, x ∈ s ↔ x ∈ t) : s = t := by
  have e := members_eq_of_ascending s.ascending t.ascending h
  cases s
  cases t
  cases e
  rfl

/-! ## Insertion -/

/-- `x` put at its place in an ascending list; nothing happens if it is there. -/
def place (x : SymbolId) : List SymbolId → List SymbolId
  | [] => [x]
  | y :: rest =>
      if x.index < y.index then x :: y :: rest
      else if y.index < x.index then y :: place x rest
      else y :: rest

theorem mem_place {x z : SymbolId} {l : List SymbolId} : z ∈ place x l ↔ z = x ∨ z ∈ l := by
  induction l with
  | nil => simp [place]
  | cons y rest ih =>
    unfold place
    split
    · exact List.mem_cons
    · split
      · simp only [List.mem_cons, ih]
        constructor
        · rintro (h | h | h)
          · exact Or.inr (Or.inl h)
          · exact Or.inl h
          · exact Or.inr (Or.inr h)
        · rintro (h | h | h)
          · exact Or.inr (Or.inl h)
          · exact Or.inl h
          · exact Or.inr (Or.inr h)
      · have hxy : x = y := Handle.ext (by omega)
        subst hxy
        simp

theorem ascending_place {x : SymbolId} {l : List SymbolId}
    (h : l.Pairwise (fun a b => a.index < b.index)) :
    (place x l).Pairwise (fun a b => a.index < b.index) := by
  induction l with
  | nil => simp [place]
  | cons y rest ih =>
    rw [List.pairwise_cons] at h
    unfold place
    split
    · rename_i hlt
      refine List.pairwise_cons.mpr ⟨fun z hz => ?_, List.pairwise_cons.mpr h⟩
      rcases List.mem_cons.mp hz with e | hz'
      · rw [e]; exact hlt
      · exact Nat.lt_trans hlt (h.1 z hz')
    · split
      · rename_i hlt
        refine List.pairwise_cons.mpr ⟨fun z hz => ?_, ih h.2⟩
        rcases mem_place.mp hz with e | hz'
        · rw [e]; exact hlt
        · exact h.1 z hz'
      · exact List.pairwise_cons.mpr h

instance : Insert SymbolId SymbolSet := ⟨fun x s => ⟨place x s.members, ascending_place s.ascending⟩⟩

instance : Singleton SymbolId SymbolSet := ⟨fun x => insert x ∅⟩

@[simp] theorem mem_insert {x z : SymbolId} {s : SymbolSet} : z ∈ insert x s ↔ z = x ∨ z ∈ s :=
  mem_place

@[simp] theorem mem_singleton {x z : SymbolId} : z ∈ ({x} : SymbolSet) ↔ z = x :=
  (mem_insert (s := ∅)).trans ⟨fun h => h.resolve_right (not_mem_empty z), Or.inl⟩

/-! ## Whole sets -/

/-- Every member of a list added to a set. -/
def insertAll (s : SymbolSet) (xs : List SymbolId) : SymbolSet :=
  xs.foldl (fun acc x => insert x acc) s

theorem mem_insertAll {s : SymbolSet} {xs : List SymbolId} {z : SymbolId} :
    z ∈ s.insertAll xs ↔ z ∈ s ∨ z ∈ xs := by
  induction xs generalizing s with
  | nil => simp [insertAll]
  | cons x xs ih =>
    have step : s.insertAll (x :: xs) = (insert x s).insertAll xs := rfl
    rw [step, ih, mem_insert, List.mem_cons]
    constructor
    · rintro ((h | h) | h)
      · exact Or.inr (Or.inl h)
      · exact Or.inl h
      · exact Or.inr (Or.inr h)
    · rintro (h | h | h)
      · exact Or.inl (Or.inr h)
      · exact Or.inl (Or.inl h)
      · exact Or.inr h

def ofList (xs : List SymbolId) : SymbolSet := insertAll ∅ xs

@[simp] theorem mem_ofList {xs : List SymbolId} {z : SymbolId} : z ∈ ofList xs ↔ z ∈ xs := by
  rw [ofList, mem_insertAll]
  exact ⟨fun h => h.resolve_left (not_mem_empty z), Or.inr⟩

instance : Union SymbolSet := ⟨fun s t => s.insertAll t.members⟩

@[simp] theorem mem_union {s t : SymbolSet} {z : SymbolId} : z ∈ s ∪ t ↔ z ∈ s ∨ z ∈ t :=
  mem_insertAll

/-- What is in the first set and not in the second. -/
instance : SDiff SymbolSet :=
  ⟨fun s t => ⟨s.members.filter (fun x => !t.contains x), s.ascending.filter _⟩⟩

@[simp] theorem mem_sdiff {s t : SymbolSet} {z : SymbolId} : z ∈ s \ t ↔ z ∈ s ∧ ¬ z ∈ t := by
  show z ∈ s.members.filter (fun x => !t.contains x) ↔ _
  rw [List.mem_filter, Bool.not_eq_true', Bool.eq_false_iff, Ne, contains_iff]
  exact Iff.rfl

/-- No symbol is in both sets. -/
def disjoint (s t : SymbolSet) : Bool := s.members.all (fun x => !t.contains x)

theorem disjoint_iff {s t : SymbolSet} : s.disjoint t = true ↔ ∀ x, x ∈ s → ¬ x ∈ t := by
  simp only [disjoint, List.all_eq_true, Bool.not_eq_true', Bool.eq_false_iff, Ne, contains_iff]
  exact Iff.rfl

theorem disjoint_eq_false_iff {s t : SymbolSet} : s.disjoint t = false ↔ ∃ x, x ∈ s ∧ x ∈ t := by
  simp only [disjoint, List.all_eq_false, Bool.not_eq_true, Bool.not_eq_false', contains_iff]
  exact Iff.rfl

theorem disjoint_comm (s t : SymbolSet) : s.disjoint t = t.disjoint s := by
  rw [Bool.eq_iff_iff, disjoint_iff, disjoint_iff]
  exact ⟨fun h x ht hs => h x hs ht, fun h x hs ht => h x ht hs⟩

theorem isEmpty_iff {s : SymbolSet} : s.isEmpty = true ↔ s = ∅ := by
  rw [isEmpty, List.isEmpty_iff]
  constructor
  · intro h
    refine ext fun x => ?_
    rw [mem_def, h]
    exact ⟨fun hx => absurd hx List.not_mem_nil, fun hx => absurd hx (not_mem_empty x)⟩
  · intro h
    rw [h]
    rfl

theorem isEmpty_eq_false_iff {s : SymbolSet} : s.isEmpty = false ↔ ∃ x, x ∈ s := by
  rw [isEmpty, List.isEmpty_eq_false_iff_exists_mem]
  exact Iff.rfl

end SymbolSet
end ShiftReduce
