/-
Answers that may be refused.

Everything that can fail answers in `Except`, and a proof about it starts from an
answer that was given.  The lemmas here say what such an answer gives away: the
answers of the parts it was put together from.
-/
import Mathlib.Data.List.Forall2

namespace ShiftReduce

variable {α β ε : Type}

/-- A sequence of two steps answers when both do. -/
theorem bind_eq_ok {x : Except ε α} {f : α → Except ε β} {b : β} :
    x >>= f = .ok b ↔ ∃ a, x = .ok a ∧ f a = .ok b := by
  cases x with
  | error e =>
    refine ⟨fun h => ?_, fun ⟨a, ha, _⟩ => ?_⟩
    · cases h
    · cases ha
  | ok a =>
    refine ⟨fun h => ⟨a, rfl, h⟩, fun ⟨a', ha, h⟩ => ?_⟩
    cases ha
    exact h

theorem map_eq_ok {x : Except ε α} {f : α → β} {b : β} :
    f <$> x = .ok b ↔ ∃ a, x = .ok a ∧ f a = b := by
  cases x with
  | error e =>
    refine ⟨fun h => ?_, fun ⟨a, ha, _⟩ => ?_⟩
    · cases h
    · cases ha
  | ok a =>
    refine ⟨fun h => ⟨a, rfl, Except.ok.inj h⟩, fun ⟨a', ha, h⟩ => ?_⟩
    cases ha
    exact congrArg Except.ok h

theorem exists_bind_ok {x : Except ε α} {f : α → Except ε β} (hx : ∃ a, x = .ok a)
    (hf : ∀ a, x = .ok a → ∃ b, f a = .ok b) : ∃ b, x >>= f = .ok b := by
  obtain ⟨a, ha⟩ := hx
  obtain ⟨b, hb⟩ := hf a ha
  exact ⟨b, bind_eq_ok.mpr ⟨a, ha, hb⟩⟩

theorem mapM_eq_ok {f : α → Except ε β} {xs : List α} {ys : List β} :
    xs.mapM f = .ok ys ↔ List.Forall₂ (fun x y => f x = .ok y) xs ys := by
  induction xs generalizing ys with
  | nil =>
    rw [List.mapM_nil, List.forall₂_nil_left_iff]
    constructor
    · intro h
      cases h
      rfl
    · intro h
      rw [h]
      rfl
  | cons x rest ih =>
    rw [List.mapM_cons, bind_eq_ok, List.forall₂_cons_left_iff]
    constructor
    · rintro ⟨y, hy, h⟩
      obtain ⟨more, hmore, h⟩ := bind_eq_ok.mp h
      cases h
      exact ⟨y, more, hy, ih.mp hmore, rfl⟩
    · rintro ⟨y, more, hy, hmore, rfl⟩
      exact ⟨y, hy, bind_eq_ok.mpr ⟨more, ih.mpr hmore, rfl⟩⟩

theorem exists_mapM_ok {f : α → Except ε β} {xs : List α} (h : ∀ x ∈ xs, ∃ y, f x = .ok y) :
    ∃ ys, xs.mapM f = .ok ys := by
  induction xs with
  | nil => exact ⟨[], mapM_eq_ok.mpr .nil⟩
  | cons x rest ih =>
    obtain ⟨hx, hrest⟩ := List.forall_mem_cons.mp h
    obtain ⟨y, hy⟩ := hx
    obtain ⟨ys, hys⟩ := ih hrest
    exact ⟨y :: ys, mapM_eq_ok.mpr (.cons hy (mapM_eq_ok.mp hys))⟩

/-- Where every member is answered as by a function that cannot be refused, so is the list. -/
theorem mapM_eq_ok_map {f : α → Except ε β} {g : α → β} {xs : List α}
    (h : ∀ x ∈ xs, f x = .ok (g x)) : xs.mapM f = .ok (xs.map g) := by
  rw [mapM_eq_ok, List.forall₂_map_right_iff]
  exact List.forall₂_same.mpr h

theorem forM_eq_ok {f : α → Except ε Unit} {xs : List α} :
    xs.forM f = .ok () ↔ ∀ x ∈ xs, f x = .ok () := by
  induction xs with
  | nil =>
    refine ⟨fun _ x hx => ?_, fun _ => rfl⟩
    exact absurd hx List.not_mem_nil
  | cons x rest ih =>
    have step : (x :: rest).forM f = (f x >>= fun _ => rest.forM f) := rfl
    rw [step, bind_eq_ok, List.forall_mem_cons]
    constructor
    · rintro ⟨_, hx, hrest⟩
      exact ⟨hx, ih.mp hrest⟩
    · rintro ⟨hx, hrest⟩
      exact ⟨(), hx, ih.mpr hrest⟩

instance decidableOk {x : Except ε α} : Decidable (∃ a, x = .ok a) :=
  match x with
  | .ok a => isTrue ⟨a, rfl⟩
  | .error _ => isFalse fun ⟨_, h⟩ => by cases h

theorem exists_ok_of_any {x : Except ε α} {p : α → Bool} (h : x.toOption.any p = true) :
    ∃ a, x = .ok a ∧ p a = true := by
  cases x with
  | error e => cases h
  | ok a => exact ⟨a, rfl, h⟩

theorem foldlM_induction {f : β → α → Except ε β} (P : β → Prop) {xs : List α}
    (step : ∀ x ∈ xs, ∀ b c, P b → f b x = .ok c → P c) {b c : β} (hb : P b)
    (h : xs.foldlM f b = .ok c) : P c := by
  induction xs generalizing b with
  | nil =>
    rw [List.foldlM_nil] at h
    cases h
    exact hb
  | cons x rest ih =>
    rw [List.foldlM_cons] at h
    obtain ⟨d, hd, h⟩ := bind_eq_ok.mp h
    have hP : P d := step x List.mem_cons_self b d hb hd
    exact ih (fun y hy => step y (List.mem_cons_of_mem x hy)) hP h

theorem foldlM_of_fixed {f : β → α → Except ε β} {xs : List α} {b : β}
    (h : ∀ x ∈ xs, f b x = .ok b) : xs.foldlM f b = .ok b := by
  induction xs with
  | nil => rfl
  | cons x rest ih =>
    obtain ⟨hx, hrest⟩ := List.forall_mem_cons.mp h
    rw [List.foldlM_cons, hx]
    exact ih hrest

/-- A fold comes by every member of the list. -/
theorem foldlM_visits {f : β → α → Except ε β} {xs : List α} {x : α} (hx : x ∈ xs) {b c : β}
    (h : xs.foldlM f b = .ok c) : ∃ (pre post : List α) (d e : β), xs = pre ++ x :: post ∧
      pre.foldlM f b = .ok d ∧ f d x = .ok e ∧ post.foldlM f e = .ok c := by
  obtain ⟨pre, post, rfl⟩ := List.append_of_mem hx
  rw [List.foldlM_append] at h
  obtain ⟨d, hd, h⟩ := bind_eq_ok.mp h
  rw [List.foldlM_cons] at h
  obtain ⟨e, he, h⟩ := bind_eq_ok.mp h
  exact ⟨pre, post, d, e, rfl, hd, he, h⟩

/-- A fold answers if its steps do, as long as what they need is kept up. -/
theorem exists_foldlM_ok {f : β → α → Except ε β} (P : β → Prop) {xs : List α}
    (step : ∀ x ∈ xs, ∀ b, P b → ∃ c, f b x = .ok c ∧ P c) {b : β} (hb : P b) :
    ∃ c, xs.foldlM f b = .ok c := by
  induction xs generalizing b with
  | nil => exact ⟨b, rfl⟩
  | cons x rest ih =>
    obtain ⟨d, hd, hP⟩ := step x List.mem_cons_self b hb
    obtain ⟨c, hc⟩ := ih (fun y hy => step y (List.mem_cons_of_mem x hy)) hP
    exact ⟨c, by rw [List.foldlM_cons]; exact bind_eq_ok.mpr ⟨d, hd, hc⟩⟩

/-- A fold whose steps answer as those of another one, as long as what they need is kept up,
answers as that one does. -/
theorem foldlM_eq_ok_foldl {f : β → α → Except ε β} {g : β → α → β} (P : β → Prop) {xs : List α}
    (step : ∀ x ∈ xs, ∀ b, P b → f b x = .ok (g b x) ∧ P (g b x)) {b : β} (hb : P b) :
    xs.foldlM f b = .ok (xs.foldl g b) ∧ P (xs.foldl g b) := by
  induction xs generalizing b with
  | nil => exact ⟨rfl, hb⟩
  | cons x rest ih =>
    obtain ⟨hx, hP⟩ := step x List.mem_cons_self b hb
    rw [List.foldlM_cons, hx, List.foldl_cons]
    exact ih (fun y hy => step y (List.mem_cons_of_mem x hy)) hP

/-- A fold commutes with a map of what it carries, as long as its steps do. -/
theorem foldlM_eq_map {γ : Type} {f : β → α → Except ε β} {g : γ → α → Except ε γ} (e : γ → β)
    (P : γ → Prop) {xs : List α}
    (step : ∀ x ∈ xs, ∀ c, P c → f (e c) x = e <$> g c x ∧ ∀ d, g c x = .ok d → P d) {c : γ}
    (hc : P c) : xs.foldlM f (e c) = e <$> xs.foldlM g c := by
  induction xs generalizing c with
  | nil => rfl
  | cons x rest ih =>
    obtain ⟨hx, hkeep⟩ := step x List.mem_cons_self c hc
    rw [List.foldlM_cons, List.foldlM_cons, hx]
    cases hd : g c x with
    | error e' => rfl
    | ok d => exact ih (fun y hy => step y (List.mem_cons_of_mem x hy)) (hkeep d hd)

theorem forall₂_set_right {R : α → β → Prop} {xs : List α} {ys : List β}
    (h : List.Forall₂ R xs ys) {i : Nat} {y : β} (hy : ∀ x, xs[i]? = some x → R x y) :
    List.Forall₂ R xs (ys.set i y) := by
  induction h generalizing i with
  | nil => exact .nil
  | cons hx hrest ih =>
    cases i with
    | zero => exact .cons (hy _ rfl) hrest
    | succ i => exact .cons hx (ih hy)

theorem exists_getElem?_of_forall₂ {R : α → β → Prop} {xs : List α} {ys : List β}
    (h : List.Forall₂ R xs ys) {i : Nat} {x : α} (hx : xs[i]? = some x) :
    ∃ y, ys[i]? = some y ∧ R x y := by
  obtain ⟨hi, rfl⟩ := List.getElem?_eq_some_iff.mp hx
  have hi' : i < ys.length := h.length_eq ▸ hi
  exact ⟨ys[i], List.getElem?_eq_getElem hi', h.get hi hi'⟩

theorem exists_mem_of_forall₂ {R : α → β → Prop} {xs : List α} {ys : List β}
    (h : List.Forall₂ R xs ys) {x : α} (hx : x ∈ xs) : ∃ y ∈ ys, R x y := by
  obtain ⟨i, hi⟩ := List.mem_iff_getElem?.mp hx
  obtain ⟨y, hy, hR⟩ := exists_getElem?_of_forall₂ h hi
  exact ⟨y, List.mem_of_getElem? hy, hR⟩

end ShiftReduce
