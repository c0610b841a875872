/-
Handles: typed positions into a table.

Symbols, rules and states live in lists and are referred to by position.  A
handle is such a position, tagged with what it points at so that a rule number
cannot be used where a state number is meant.  Handles are 32 bits wide.  Making
one from a larger number keeps the number modulo `handleSpan`, and two lemmas are
all that later files need to know about that: `index_ofNat` says what is kept, and
`ofNat_index` that a position which fits is kept unchanged.

A handle may point past the end of its table.  Reading or writing through it is
then refused, never answered with a default.
-/
namespace ShiftReduce

/-- The number of different handles, which is the number of 32-bit words. -/
abbrev handleSpan : Nat := 0x100000000

/-- A position in a table of `α`.  The bound is part of the type, so equal
positions are equal handles and no separate validity is carried around. -/
structure Handle (α : Type) where
  index : Nat
  index_lt : index < handleSpan

namespace Handle

variable {α : Type}

/-- Two handles are equal as soon as their positions are. -/
theorem ext {a b : Handle α} (h : a.index = b.index) : a = b := by
  cases a
  cases b
  cases h
  rfl

instance : DecidableEq (Handle α) := fun a b =>
  if h : a.index = b.index then isTrue (ext h)
  else isFalse fun e => h (congrArg index e)

instance : LT (Handle α) := ⟨fun a b => a.index < b.index⟩

instance (a b : Handle α) : Decidable (a < b) :=
  inferInstanceAs (Decidable (a.index < b.index))

/-- The handle of position `n`, which is kept modulo `handleSpan`. -/
def ofNat (n : Nat) : Handle α :=
  ⟨n % handleSpan, Nat.mod_lt n (by decide)⟩

@[simp] theorem index_ofNat (n : Nat) : (ofNat n : Handle α).index = n % handleSpan := rfl

@[simp] theorem ofNat_index (h : Handle α) : ofNat h.index = h :=
  ext (Nat.mod_eq_of_lt h.index_lt)

/-- Below the span a position survives unchanged. -/
theorem index_ofNat_of_lt {n : Nat} (h : n < handleSpan) : (ofNat n : Handle α).index = n :=
  Nat.mod_eq_of_lt h

/-! ## Tables

The three operations a table of `α` offers to the holder of a handle. -/

/-- The entry a handle points at. -/
def get? (table : List α) (h : Handle α) : Option α := table[h.index]?

/-- The table with one entry replaced, if the handle points into it. -/
def set? (table : List α) (h : Handle α) (entry : α) : Option (List α) :=
  if h.index < table.length then some (table.set h.index entry) else none

/-- The table with `entry` added at its end, and the handle of the new entry. -/
def push (table : List α) (entry : α) : Handle α × List α :=
  (ofNat table.length, table ++ [entry])

/-- While the table is short enough for its next position to be a handle, what
was pushed is found again. -/
theorem get?_push {table : List α} (h : table.length < handleSpan) (entry : α) :
    get? (push table entry).2 (push table entry).1 = some entry := by
  simp [get?, push, Nat.mod_eq_of_lt h]

end Handle
end ShiftReduce
