/-
Rows: maps from names to entries, kept in the order of the names.

The order is that of the code points of the names.  A row is a plain list, so that
an entry may itself hold rows; `put` is the only way rows are made, and keeps each
name once and all of them in order.
-/
namespace ShiftReduce

/-- Entries under names, in ascending order of the names. -/
abbrev Row (α : Type) := List (String × α)

namespace Row

variable {α : Type}

/-- The entry under a name. -/
def find? (row : Row α) (name : String) : Option α := row.lookup name

/-- The row with an entry under a name, whatever was there before. -/
def put (name : String) (entry : α) : Row α → Row α
  | [] => [(name, entry)]
  | (other, old) :: rest =>
      if name < other then (name, entry) :: (other, old) :: rest
      else if other < name then (other, old) :: put name entry rest
      else (name, entry) :: rest

/-- What was put is found. -/
theorem find?_put_self (name : String) (entry : α) (row : Row α) :
    (row.put name entry).find? name = some entry := by
  induction row with
  | nil => simp [put, find?]
  | cons head rest ih =>
    obtain ⟨other, old⟩ := head
    rw [put]
    split
    · simp [find?]
    · split
      · rename_i h
        have hne : (name == other) = false :=
          beq_eq_false_iff_ne.mpr fun e => String.lt_irrefl name (by rw [e] at h ⊢; exact h)
        rw [find?, List.lookup_cons, hne]
        exact ih
      · simp [find?]

/-- Other names keep what they had. -/
theorem find?_put_of_ne {name other : String} (h : other ≠ name) (entry : α) (row : Row α) :
    (row.put name entry).find? other = row.find? other := by
  have hne : (other == name) = false := beq_eq_false_iff_ne.mpr h
  induction row with
  | nil => simp [put, find?, List.lookup_cons, hne]
  | cons head rest ih =>
    obtain ⟨first, old⟩ := head
    rw [put]
    split
    · rw [find?, List.lookup_cons, hne]
      rfl
    · split
      · rw [find?, find?, List.lookup_cons, List.lookup_cons]
        split
        · rfl
        · exact ih
      · rename_i h1 h2
        have e : name = first := String.le_antisymm h2 h1
        rw [find?, find?, List.lookup_cons, List.lookup_cons, hne, ← e, hne]

end Row
end ShiftReduce
