/-
Iteration to a fixed point.

The analyses of a grammar and of an automaton all repeat one sweep until it
changes nothing.  `saturate` is that repetition.  It recurses on a bound that its
caller computes from the input, and stops as soon as a sweep has no effect, so a
generous bound costs nothing.

`saturate_fixed` is the reason a bound is only a bound: if every sweep that
changes something lowers a measure, then a bound above the measure is never
reached and the answer is a fixed point.
-/
namespace ShiftReduce

/-- Repeats `sweep` until it changes nothing, at most `bound` times. -/
def saturate {α : Type} [DecidableEq α] (sweep : α → α) : Nat → α → α
  | 0, a => a
  | bound + 1, a => if sweep a = a then a else saturate sweep bound (sweep a)

/-- The same with a sweep that may be refused, which ends the repetition. -/
def saturateM {α ε : Type} [DecidableEq α] (sweep : α → Except ε α) : Nat → α → Except ε α
  | 0, a => .ok a
  | bound + 1, a => do
      let b ← sweep a
      if b = a then return a else saturateM sweep bound b

/-- What holds of the start and survives a sweep holds of the answer. -/
theorem saturate_induction {α : Type} [DecidableEq α] {sweep : α → α} (P : α → Prop)
    (step : ∀ a, P a → P (sweep a)) (bound : Nat) {a : α} (h : P a) :
    P (saturate sweep bound a) := by
  induction bound generalizing a with
  | zero => exact h
  | succ bound ih =>
    unfold saturate
    split
    · exact h
    · exact ih (step a h)

/-- With a measure that every effective sweep lowers, a bound above the measure
is enough to reach a fixed point.  The measure is only asked to fall while the
invariant `P` holds, since sweeps start from a known value. -/
theorem saturate_fixed {α : Type} [DecidableEq α] {sweep : α → α} (P : α → Prop)
    (size : α → Nat) (step : ∀ a, P a → P (sweep a))
    (falls : ∀ a, P a → sweep a ≠ a → size (sweep a) < size a)
    {bound : Nat} {a : α} (h : P a) (hb : size a < bound) :
    sweep (saturate sweep bound a) = saturate sweep bound a := by
  induction bound generalizing a with
  | zero => exact absurd hb (Nat.not_lt_zero _)
  | succ bound ih =>
    unfold saturate
    split
    · assumption
    · rename_i hne
      have hlt := falls a h hne
      exact ih (step a h) (by omega)

/-- Where the sweep answers as another one that cannot be refused, so does its repetition. -/
theorem saturateM_eq_ok {α ε : Type} [DecidableEq α] {sweepM : α → Except ε α} {sweep : α → α}
    (P : α → Prop) (step : ∀ a, P a → sweepM a = .ok (sweep a) ∧ P (sweep a)) (bound : Nat) {a : α}
    (h : P a) : saturateM sweepM bound a = .ok (saturate sweep bound a) := by
  induction bound generalizing a with
  | zero => rfl
  | succ bound ih =>
    obtain ⟨hsweep, hnext⟩ := step a h
    rw [saturateM, saturate, hsweep]
    show (if sweep a = a then _ else saturateM sweepM bound (sweep a)) = _
    split
    · rfl
    · exact ih hnext

end ShiftReduce
