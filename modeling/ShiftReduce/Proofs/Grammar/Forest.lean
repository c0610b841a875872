/-
Parse forests.

A forest is a row of parse trees, told from left to right: a leaf or a node is
followed by the rest of the row, and a node holds the row of its children.  One
kind of induction thus serves trees and rows alike, and it goes through a row in
the order in which a parser does.

A forest derives its yield from its roots.  The rules of its nodes, each after
those of its children, are the reductions of a parser; backwards they are the
rightmost derivation, and they tell the forest, which is `eq_of_postorder`.
-/
import ShiftReduce.Proofs.Grammar.Derivation

namespace ShiftReduce

/-- A row of parse trees. -/
inductive Forest where
  | nil
  | leaf (x : SymbolId) (rest : Forest)
  | node (r : RuleId) (children rest : Forest)
deriving DecidableEq

namespace Forest

/-- The symbols at the roots. -/
def roots (g : Grammar) : Forest → List SymbolId
  | nil => []
  | leaf x rest => x :: rest.roots g
  | node r _ rest => g.leftOf r :: rest.roots g

/-- The symbols at the leaves. -/
def yield : Forest → List SymbolId
  | nil => []
  | leaf x rest => x :: rest.yield
  | node _ children rest => children.yield ++ rest.yield

/-- The rules of the nodes, each after those of its children. -/
def postorder : Forest → List RuleId
  | nil => []
  | leaf _ rest => rest.postorder
  | node r children rest => children.postorder ++ r :: rest.postorder

/-- Every node has a rule of the grammar and children that spell its right side. -/
def Valid (g : Grammar) : Forest → Prop
  | nil => True
  | leaf _ rest => rest.Valid g
  | node r children rest =>
      r.index < g.rules.length ∧ children.roots g = g.rightOf r ∧ children.Valid g ∧ rest.Valid g

instance decidableValid (g : Grammar) : (f : Forest) → Decidable (f.Valid g)
  | nil => inferInstanceAs (Decidable True)
  | leaf _ rest => decidableValid g rest
  | node r children rest =>
      have := decidableValid g children
      have := decidableValid g rest
      inferInstanceAs (Decidable (r.index < g.rules.length ∧ children.roots g = g.rightOf r ∧
        children.Valid g ∧ rest.Valid g))

/-- One row after the other. -/
def append : Forest → Forest → Forest
  | nil, more => more
  | leaf x rest, more => leaf x (rest.append more)
  | node r children rest, more => node r children (rest.append more)

/-- A row of leaves. -/
def leaves : List SymbolId → Forest
  | [] => nil
  | x :: rest => leaf x (leaves rest)

/-- A parse tree of a sequence: one tree, with the start symbol at its root. -/
def Parses (g : Grammar) (f : Forest) (w : List SymbolId) : Prop :=
  f.Valid g ∧ (∃ start, g.start? = some start ∧ f.roots g = [start]) ∧ f.yield = w

variable {g : Grammar}

theorem roots_append (f h : Forest) : (f.append h).roots g = f.roots g ++ h.roots g := by
  induction f with
  | nil => rfl
  | leaf x rest ih => exact congrArg (x :: ·) ih
  | node r children rest _ ih => exact congrArg (g.leftOf r :: ·) ih

theorem yield_append (f h : Forest) : (f.append h).yield = f.yield ++ h.yield := by
  induction f with
  | nil => rfl
  | leaf x rest ih => exact congrArg (x :: ·) ih
  | node r children rest _ ih =>
    show children.yield ++ (rest.append h).yield = children.yield ++ rest.yield ++ h.yield
    rw [ih, List.append_assoc]

theorem postorder_append (f h : Forest) :
    (f.append h).postorder = f.postorder ++ h.postorder := by
  induction f with
  | nil => rfl
  | leaf x rest ih => exact ih
  | node r children rest _ ih =>
    show children.postorder ++ r :: (rest.append h).postorder =
      children.postorder ++ r :: rest.postorder ++ h.postorder
    rw [ih, List.append_assoc]
    rfl

theorem valid_append {f h : Forest} : (f.append h).Valid g ↔ f.Valid g ∧ h.Valid g := by
  induction f with
  | nil => exact ⟨fun hh => ⟨trivial, hh⟩, fun hh => hh.2⟩
  | leaf x rest ih => exact ih
  | node r children rest _ ih =>
    simp only [append, Valid, ih]
    exact ⟨fun ⟨h₁, h₂, h₃, h₄, h₅⟩ => ⟨⟨h₁, h₂, h₃, h₄⟩, h₅⟩,
      fun ⟨⟨h₁, h₂, h₃, h₄⟩, h₅⟩ => ⟨h₁, h₂, h₃, h₄, h₅⟩⟩

theorem roots_leaves (xs : List SymbolId) : (leaves xs).roots g = xs := by
  induction xs with
  | nil => rfl
  | cons x rest ih => exact congrArg (x :: ·) ih

theorem yield_leaves (xs : List SymbolId) : (leaves xs).yield = xs := by
  induction xs with
  | nil => rfl
  | cons x rest ih => exact congrArg (x :: ·) ih

theorem valid_leaves (xs : List SymbolId) : (leaves xs).Valid g := by
  induction xs with
  | nil => trivial
  | cons x rest ih => exact ih

/-- A row splits where its roots do. -/
theorem exists_append_of_roots {f : Forest} {xs ys : List SymbolId} (h : f.roots g = xs ++ ys) :
    ∃ front back : Forest, f = front.append back ∧ front.roots g = xs ∧ back.roots g = ys := by
  induction xs generalizing f with
  | nil => exact ⟨nil, f, rfl, rfl, h⟩
  | cons x xs ih =>
    cases f with
    | nil => cases h
    | leaf y rest =>
      obtain ⟨e, hrest⟩ := List.cons.inj h
      obtain ⟨front, back, rfl, hfront, hback⟩ := ih hrest
      exact ⟨leaf y front, back, rfl, by rw [roots, hfront, e], hback⟩
    | node r children rest =>
      obtain ⟨e, hrest⟩ := List.cons.inj h
      obtain ⟨front, back, rfl, hfront, hback⟩ := ih hrest
      exact ⟨node r children front, back, rfl, by rw [roots, hfront, e], hback⟩

/-! ## Forests and derivations -/

theorem exists_of_derives {xs w : List SymbolId} (h : g.Derives xs w) :
    ∃ f : Forest, f.Valid g ∧ f.roots g = xs ∧ f.yield = w := by
  induction h using Relation.ReflTransGen.head_induction_on with
  | refl => exact ⟨leaves w, valid_leaves w, roots_leaves w, yield_leaves w⟩
  | head hstep _ ih =>
    obtain ⟨f, hvalid, hroots, hyield⟩ := ih
    cases hstep with
    | @replace r front back hr =>
      obtain ⟨f', third, rfl, hroots, hthird⟩ := exists_append_of_roots hroots
      obtain ⟨first, second, rfl, hfirst, hsecond⟩ := exists_append_of_roots hroots
      obtain ⟨hvalid, hvalid₃⟩ := valid_append.mp hvalid
      obtain ⟨hvalid₁, hvalid₂⟩ := valid_append.mp hvalid
      refine ⟨first.append (node r second third), ?_, ?_, ?_⟩
      · exact valid_append.mpr ⟨hvalid₁, hr, hsecond, hvalid₂, hvalid₃⟩
      · rw [roots_append, hfirst, roots, hthird]
      · rw [← hyield, yield_append, yield_append, yield_append, List.append_assoc]
        rfl

theorem derives {f : Forest} (h : f.Valid g) : g.Derives (f.roots g) f.yield := by
  induction f with
  | nil => exact .refl
  | leaf x rest ih =>
    have hleaf : g.Derives [x] [x] := .refl
    exact hleaf.both (ih h)
  | node r children rest ihc ihr =>
    obtain ⟨hr, hroots, hchildren, hrest⟩ := h
    have hnode : g.Derives [g.leftOf r] children.yield :=
      (Grammar.derives_rightOf hr).trans (hroots ▸ ihc hchildren)
    exact hnode.both (ihr hrest)

/-- Backwards, the postorder of a forest is a rightmost derivation. -/
theorem rightmost {f : Forest} (hvalid : f.Valid g)
    (hyield : ∀ x ∈ f.yield, g.isTerminal x = true) :
    g.Rightmost f.postorder.reverse (f.roots g) f.yield := by
  induction f with
  | nil => exact .done
  | leaf x rest ih =>
    exact (ih hvalid fun y hy => hyield y (List.mem_cons_of_mem x hy)).append_left [x]
  | node r children rest ihc ihr =>
    obtain ⟨hr, hroots, hchildren, hrest⟩ := hvalid
    have hrest_yield : ∀ x ∈ rest.yield, g.isTerminal x = true := fun x hx =>
      hyield x (List.mem_append_right _ hx)
    have first := (ihr hrest hrest_yield).append_left [g.leftOf r]
    have second := (ihc hchildren fun x hx => hyield x (List.mem_append_left _ hx)).append_right
      hrest_yield
    rw [hroots] at second
    have both : g.Rightmost (r :: children.postorder.reverse) ([] ++ g.leftOf r :: rest.yield)
        (children.yield ++ rest.yield) := .replace hr hrest_yield second
    have e : (node r children rest).postorder.reverse =
        rest.postorder.reverse ++ r :: children.postorder.reverse := by
      rw [postorder, List.reverse_append, List.reverse_cons, List.append_assoc]
      rfl
    rw [e]
    exact first.trans both

/-- The roots of a forest and its postorder, read backwards and followed by
anything, tell the forest: a rule read says how many children to look for, and
these come right after it. -/
theorem eq_of_reverse_postorder (wf : g.WellFormed) {f h : Forest} (hf : f.Valid g)
    (hh : h.Valid g) (hfy : ∀ x ∈ f.yield, g.isTerminal x = true)
    (hhy : ∀ x ∈ h.yield, g.isTerminal x = true) (hroots : f.roots g = h.roots g)
    {s s' : List RuleId} (he : f.postorder.reverse ++ s = h.postorder.reverse ++ s') :
    f = h ∧ s = s' := by
  have differ : ∀ (x : SymbolId) (r : RuleId), r.index < g.rules.length →
      g.isTerminal x = true → x ≠ g.leftOf r := by
    intro x r hr hx e
    have hn := wf.isNonterminal_leftOf hr
    rw [← e] at hn
    rw [Grammar.isTerminal_eq_not_isNonterminal (Grammar.lt_of_isTerminal hx), hn] at hx
    cases hx
  induction f generalizing h s s' with
  | nil =>
    cases h with
    | nil => exact ⟨rfl, he⟩
    | leaf x rest => cases hroots
    | node r children rest => cases hroots
  | leaf x rest ih =>
    have hx := hfy x List.mem_cons_self
    cases h with
    | nil => cases hroots
    | leaf y rest' =>
      obtain ⟨e, hrest⟩ := List.cons.inj hroots
      obtain ⟨e', hs⟩ := ih (h := rest') hf hh (fun z hz => hfy z (List.mem_cons_of_mem x hz))
        (fun z hz => hhy z (List.mem_cons_of_mem y hz)) hrest he
      exact ⟨by rw [e, e'], hs⟩
    | node r children rest' => exact absurd (List.cons.inj hroots).1 (differ x r hh.1 hx)
  | node r children rest ihc ihr =>
    obtain ⟨hr, hchildren_roots, hchildren, hrest⟩ := hf
    cases h with
    | nil => cases hroots
    | leaf x rest' =>
      have hx := hhy x List.mem_cons_self
      exact absurd (List.cons.inj hroots).1.symm (differ x r hr hx)
    | node r' children' rest' =>
      obtain ⟨_, hchildren_roots', hchildren', hrest'⟩ := hh
      simp only [postorder, List.reverse_append, List.reverse_cons, List.append_assoc,
        List.cons_append, List.nil_append] at he
      obtain ⟨e, hs⟩ := ihr hrest hrest' (fun z hz => hfy z (List.mem_append_right _ hz))
        (fun z hz => hhy z (List.mem_append_right _ hz)) (List.cons.inj hroots).2 he
      obtain ⟨er, hs⟩ := List.cons.inj hs
      have hboth : children.roots g = children'.roots g := by
        rw [hchildren_roots, hchildren_roots', er]
      obtain ⟨ec, hs⟩ := ihc hchildren hchildren' (fun z hz => hfy z (List.mem_append_left _ hz))
        (fun z hz => hhy z (List.mem_append_left _ hz)) hboth hs
      exact ⟨by rw [e, er, ec], hs⟩

theorem eq_of_postorder (wf : g.WellFormed) {f h : Forest} (hf : f.Valid g) (hh : h.Valid g)
    (hfy : ∀ x ∈ f.yield, g.isTerminal x = true) (hhy : ∀ x ∈ h.yield, g.isTerminal x = true)
    (hroots : f.roots g = h.roots g) (he : f.postorder = h.postorder) : f = h := by
  have hreverse : f.postorder.reverse ++ [] = h.postorder.reverse ++ [] := by rw [he]
  exact (eq_of_reverse_postorder wf hf hh hfy hhy hroots hreverse).1

end Forest

/-- What two parts derive splits into what each of them derives. -/
theorem Grammar.Derives.exists_append {g : Grammar} {xs ys zs : List SymbolId}
    (h : g.Derives (xs ++ ys) zs) :
    ∃ front back, zs = front ++ back ∧ g.Derives xs front ∧ g.Derives ys back := by
  obtain ⟨f, hvalid, hroots, rfl⟩ := Forest.exists_of_derives h
  obtain ⟨front, back, rfl, rfl, rfl⟩ := Forest.exists_append_of_roots hroots
  obtain ⟨hfront, hback⟩ := Forest.valid_append.mp hvalid
  exact ⟨front.yield, back.yield, Forest.yield_append front back, Forest.derives hfront, Forest.derives hback⟩

end ShiftReduce
