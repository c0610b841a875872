/-
How large a parse forest gets.

If no nonterminal of a sentential form loops, what a parser has on its stack and what hangs
below it is limited by what was read.

On the way down through a tree the yield gets shorter, or the nonterminal becomes another
one with all around it vanishing, and that cannot go round in a circle; so a tree is as high
as its yield is long times the number of nonterminals, at most.  Along a chain of rules the
stack grows over something that was read or over something that vanishes, and the latter
cannot go round in a circle either.  In both cases what goes down is the number of
nonterminals that are still ahead: the `rank` of a relation that has no circles.
-/
import ShiftReduce.Proofs.Grammar.Recursion
import Mathlib.Data.Set.Card

namespace ShiftReduce

instance finiteHandle {α : Type} : Finite (Handle α) :=
  Finite.of_injective (fun h : Handle α => (⟨h.index, h.index_lt⟩ : Fin handleSpan))
    fun _ _ e => Handle.ext (congrArg Fin.val e)

/-! ## Ranks -/

section Rank

variable {α : Type} [Finite α] {R : α → α → Prop} {x y : α}

/-- To how many things something is related. -/
noncomputable def rank (R : α → α → Prop) (x : α) : Nat := Set.ncard {y | R x y}

theorem rank_le_card (R : α → α → Prop) (x : α) : rank R x ≤ Nat.card α := Set.ncard_le_card _

theorem rank_le_rank (h : ∀ z, R y z → R x z) : rank R y ≤ rank R x :=
  Set.ncard_le_ncard h (Set.toFinite _)

/-- What comes after something, and not after itself, has a lower rank. -/
theorem rank_lt_rank (h : ∀ z, R y z → R x z) (hxy : R x y) (hyy : ¬ R y y) :
    rank R y < rank R x := by
  refine Set.ncard_lt_ncard ⟨h, fun hsub => hyy ?_⟩ (Set.toFinite _)
  exact hsub hxy

end Rank

/-! ## Trees -/

/-- The number of nodes of a tree so high, if no rule has a longer right side. -/
def growth (width : Nat) : Nat → Nat
  | 0 => 1
  | n + 1 => width * growth width n + 1

theorem growth_le_growth {width m n : Nat} (h : m ≤ n) : growth width m ≤ growth width n := by
  refine monotone_nat_of_le_succ (fun n => ?_) h
  induction n with
  | zero => exact Nat.le_add_left 1 _
  | succ n ih => exact Nat.succ_le_succ (Nat.mul_le_mul_left width ih)

namespace Forest

/-- A row has as many nodes as it has trees, times what one tree has at most. -/
theorem length_postorder_le {g : Grammar} {bound : Nat} {f : Forest}
    (h : ∀ (front : Forest) (r : RuleId) (children back : Forest),
      f = front.append (node r children back) → children.postorder.length < bound) :
    f.postorder.length ≤ (f.roots g).length * bound := by
  induction f with
  | nil => exact Nat.zero_le _
  | leaf x rest ih =>
    have hrest := ih fun front r children back e =>
      h (leaf x front) r children back (congrArg (leaf x) e)
    rw [roots, List.length_cons, Nat.succ_mul]
    exact Nat.le_trans hrest (Nat.le_add_right _ _)
  | node r children rest _ ih =>
    have hrest := ih fun front r' children' back e =>
      h (node r children front) r' children' back (congrArg (node r children) e)
    have hnode := h nil r children rest rfl
    rw [postorder, roots, List.length_append, List.length_cons, List.length_cons, Nat.succ_mul]
    omega

end Forest

namespace Grammar

/-- A bound for the lengths of the right sides. -/
def width (g : Grammar) : Nat := g.rules.foldr (fun rule n => rule.right.length + n) 0

/-- A bound for ranks of symbols. -/
noncomputable def rankSpan : Nat := Nat.card SymbolId

/-- The symbol unfolds to the other one, and all around that vanishes. -/
def Becomes (g : Grammar) (x y : SymbolId) : Prop :=
  ∃ front back : List SymbolId, g.Unfolds x front y back ∧ g.Derives front [] ∧ g.Derives back []

/-- The symbol unfolds to the other one with something in front of it, and that vanishes. -/
def Trails (g : Grammar) (x y : SymbolId) : Prop :=
  ∃ front back : List SymbolId, g.Unfolds x front y back ∧ g.Derives front [] ∧ front ≠ []

variable {g : Grammar} {x y z : SymbolId}

theorem length_rightOf_le (g : Grammar) (r : RuleId) : (g.rightOf r).length ≤ g.width := by
  have hsum : ∀ rules : List Rule, ∀ rule ∈ rules,
      rule.right.length ≤ rules.foldr (fun rule n => rule.right.length + n) 0 := by
    intro rules
    induction rules with
    | nil => exact fun rule hrule => absurd hrule List.not_mem_nil
    | cons first rest ih =>
      refine List.forall_mem_cons.mpr ⟨Nat.le_add_right _ _, fun rule hrule => ?_⟩
      exact Nat.le_trans (ih rule hrule) (Nat.le_add_left _ _)
  unfold rightOf
  cases hrule : g.rule? r with
  | none => exact Nat.zero_le _
  | some rule => exact hsum g.rules rule (List.mem_of_getElem? hrule)

theorem Becomes.trans (h : g.Becomes x y) (h' : g.Becomes y z) : g.Becomes x z := by
  obtain ⟨front, back, hunfolds, hfront, hback⟩ := h
  obtain ⟨front', back', hunfolds', hfront', hback'⟩ := h'
  exact ⟨_, _, hunfolds.trans hunfolds', hfront.both hfront', hback'.both hback⟩

theorem not_becomes_self (h : ¬ g.Loops x) : ¬ g.Becomes x x := by
  rintro ⟨front, back, hunfolds, hfront, hback⟩
  exact h ⟨front, back, hunfolds, hfront, Or.inr hback⟩

theorem not_trails_self (h : ¬ g.Loops x) : ¬ g.Trails x x := by
  rintro ⟨front, back, hunfolds, hfront, hne⟩
  exact h ⟨front, back, hunfolds, hfront, Or.inl hne⟩

theorem Trails.of_unfolds {front back : List SymbolId} (h : g.Unfolds x front y back)
    (hfront : g.Derives front []) (h' : g.Trails y z) : g.Trails x z := by
  obtain ⟨front', back', hunfolds, hvanish, hne⟩ := h'
  refine ⟨_, _, h.trans hunfolds, hfront.both hvanish, fun hnil => hne ?_⟩
  exact (List.append_eq_nil_iff.mp hnil).2

/-- A child has a shorter yield than its parent, or the parent becomes it. -/
theorem measure_child_lt {r r' : RuleId} {front children back : Forest}
    (hr : r.index < g.rules.length)
    (hroots : (front.append (.node r' children back)).roots g = g.rightOf r)
    (hvalid : (front.append (.node r' children back)).Valid g) (hloops : ¬ g.Loops (g.leftOf r')) :
    children.yield.length * (rankSpan + 1) + rank g.Becomes (g.leftOf r') <
      (front.append (.node r' children back)).yield.length * (rankSpan + 1) +
        rank g.Becomes (g.leftOf r) := by
  obtain ⟨hfront, _, _, _, hback⟩ := Forest.valid_append.mp hvalid
  have hyield : (front.append (.node r' children back)).yield =
      front.yield ++ (children.yield ++ back.yield) := Forest.yield_append ..
  have hlength : (front.append (.node r' children back)).yield.length =
      front.yield.length + (children.yield.length + back.yield.length) := by
    rw [hyield, List.length_append, List.length_append]
  by_cases halone : front.yield = [] ∧ back.yield = []
  · have hright : g.rightOf r = front.roots g ++ g.leftOf r' :: back.roots g :=
      hroots.symm.trans (Forest.roots_append ..)
    have hbecomes : g.Becomes (g.leftOf r) (g.leftOf r') :=
      ⟨_, _, .of_split hr hright, halone.1 ▸ Forest.derives hfront, halone.2 ▸ Forest.derives hback⟩
    have hrank := rank_lt_rank (fun _ => hbecomes.trans) hbecomes (not_becomes_self hloops)
    rw [hlength, halone.1, halone.2]
    simp only [List.length_nil, Nat.zero_add, Nat.add_zero]
    omega
  · have hshorter : children.yield.length + 1 ≤
        (front.append (.node r' children back)).yield.length := by
      rw [hlength]
      by_cases hempty : front.yield = []
      · have hne := List.length_pos_iff.mpr fun he => halone ⟨hempty, he⟩
        omega
      · have hne := List.length_pos_iff.mpr hempty
        omega
    have hmul := Nat.mul_le_mul_right (rankSpan + 1) hshorter
    have hspan : rank g.Becomes (g.leftOf r') ≤ rankSpan := rank_le_card _ _
    rw [Nat.succ_mul] at hmul
    omega

/-- The number of nodes below the root of a tree is limited by its yield, and by what the
root can become. -/
theorem length_postorder_lt (hloops : ∀ x, g.Reachable x → ¬ g.Loops x) {f : Forest}
    (hvalid : f.Valid g) (hreachable : ∀ x ∈ f.roots g, g.Reachable x) (front : Forest) (r : RuleId)
    (children back : Forest) (hf : f = front.append (.node r children back)) :
    children.postorder.length <
      growth g.width (children.yield.length * (rankSpan + 1) + rank g.Becomes (g.leftOf r) + 1) := by
  induction f generalizing front r children back with
  | nil =>
    cases front <;> cases hf
  | leaf x rest ih =>
    have hrest := ih hvalid fun x hx => hreachable x (List.mem_cons_of_mem _ hx)
    cases front with
    | nil => cases hf
    | leaf x' front =>
      cases hf
      exact hrest front r children back rfl
    | node r' children' front => cases hf
  | node r₀ children₀ rest ihc ihr =>
    obtain ⟨hr, hroots, hchildren, hrest⟩ := hvalid
    cases front with
    | leaf x front => cases hf
    | node r' children' front =>
      cases hf
      exact ihr hrest (fun x hx => hreachable x (List.mem_cons_of_mem _ hx)) front r children back rfl
    | nil =>
      cases hf
      have hbelow : ∀ x ∈ children₀.roots g, g.Reachable x := fun x hx =>
        (hreachable _ List.mem_cons_self).of_rightOf hr (hroots ▸ hx)
      have hcount : children₀.postorder.length ≤ (children₀.roots g).length * growth g.width
          (children₀.yield.length * (rankSpan + 1) + rank g.Becomes (g.leftOf r₀)) := by
        refine Forest.length_postorder_le fun front r' children' back e => ?_
        have hmem : g.leftOf r' ∈ children₀.roots g := by
          rw [e, Forest.roots_append]
          exact List.mem_append_right _ List.mem_cons_self
        have hchild := ihc hchildren hbelow front r' children' back e
        subst e
        exact Nat.lt_of_lt_of_le hchild (growth_le_growth
          (measure_child_lt hr hroots hchildren (hloops _ (hbelow _ hmem))))
      rw [hroots] at hcount
      exact Nat.lt_succ_of_le
        (Nat.le_trans hcount (Nat.mul_le_mul_right _ (g.length_rightOf_le r₀)))

/-! ## Rows -/

theorem Chain.index_lt (wf : g.WellFormed) {context : List SymbolId} {r : RuleId}
    (h : g.Chain context r) : r.index < g.rules.length := by
  cases h with
  | start =>
    obtain ⟨start, _, hzero, _⟩ := wf.exists_start
    exact (List.getElem?_eq_some_iff.mp hzero).1
  | link _ _ hr => exact hr

/-- What stands before the left sides of a chain of rules is limited by what was read there,
and by what can still stand there without being read. -/
theorem Chain.length_le (wf : g.WellFormed) (hloops : ∀ x, g.Reachable x → ¬ g.Loops x)
    {context : List SymbolId} {r : RuleId} (h : g.Chain context r) {f : Forest}
    (hvalid : f.Valid g) (hroots : f.roots g = context) :
    context.length + g.width * rank g.Trails (g.leftOf r) ≤
      g.width * (f.yield.length * (rankSpan + 1) + rankSpan) := by
  induction h generalizing f with
  | start =>
    rw [List.length_nil, Nat.zero_add]
    refine Nat.mul_le_mul_left _ (Nat.le_trans (rank_le_card _ _) ?_)
    exact Nat.le_add_left _ _
  | @link context front back r r' hchain hright hr' ih =>
    obtain ⟨f, f', rfl, hf, hf'⟩ := Forest.exists_append_of_roots hroots
    obtain ⟨hvalid, hvalid'⟩ := Forest.valid_append.mp hvalid
    have hcontext := ih hvalid hf
    have hmem : g.leftOf r' ∈ g.rightOf r := hright ▸ List.mem_append_right _ List.mem_cons_self
    have hstays : ¬ g.Trails (g.leftOf r') (g.leftOf r') :=
      not_trails_self (hloops _ (hchain.reachable wf (List.mem_append_right _ hmem)))
    have hunfolds : g.Unfolds (g.leftOf r) front (g.leftOf r') back :=
      .of_split (hchain.index_lt wf) hright
    rw [Forest.yield_append, List.length_append, List.length_append]
    have hwidth : front.length ≤ g.width := by
      refine Nat.le_trans ?_ (g.length_rightOf_le r)
      rw [hright, List.length_append]
      exact Nat.le_add_right _ _
    by_cases hread : f'.yield = []
    · have hvanish : g.Derives front [] := by
        rw [← hf', ← hread]
        exact Forest.derives hvalid'
      have hcarry : ∀ z, g.Trails (g.leftOf r') z → g.Trails (g.leftOf r) z := fun _ =>
        Trails.of_unfolds hunfolds hvanish
      have hfront : front.length + g.width * rank g.Trails (g.leftOf r') ≤
          g.width * rank g.Trails (g.leftOf r) := by
        by_cases hnil : front = []
        · rw [hnil, List.length_nil, Nat.zero_add]
          exact Nat.mul_le_mul_left _ (rank_le_rank hcarry)
        · have hrank := rank_lt_rank hcarry ⟨_, _, hunfolds, hvanish, hnil⟩ hstays
          have hmul := Nat.mul_le_mul_left g.width hrank
          rw [Nat.mul_succ] at hmul
          omega
      rw [hread, List.length_nil, Nat.add_zero]
      omega
    · have hlonger : f.yield.length * (rankSpan + 1) + rankSpan + (1 + rankSpan) ≤
          (f.yield.length + f'.yield.length) * (rankSpan + 1) + rankSpan := by
        have hmul := Nat.mul_le_mul_right (rankSpan + 1) (List.length_pos_iff.mpr hread)
        rw [Nat.add_mul]
        omega
      have hmul := Nat.mul_le_mul_left g.width hlonger
      have hrank := Nat.mul_le_mul_left g.width (rank_le_card g.Trails (g.leftOf r'))
      rw [Nat.mul_add _ _ (1 + rankSpan), Nat.mul_add _ 1, Nat.mul_one] at hmul
      change g.width * rank g.Trails (g.leftOf r') ≤ g.width * rankSpan at hrank
      omega

/-- A bound for the nodes of a row that stands on a parser's stack, with so much read. -/
noncomputable def capacity (g : Grammar) (n : Nat) : Nat :=
  (g.width * (n * (rankSpan + 1) + rankSpan) + g.width) *
    growth g.width (n * (rankSpan + 1) + rankSpan + 1)

end Grammar

open Grammar in
/-- What hangs below a viable prefix is limited by what was read. -/
theorem Item.Viable.length_postorder_le {g : Grammar} (wf : g.WellFormed)
    (hloops : ∀ x, g.Reachable x → ¬ g.Loops x) {item : Item} {f : Forest} (hvalid : f.Valid g)
    (h : item.Viable g (f.roots g)) {n : Nat} (hn : f.yield.length ≤ n) :
    f.postorder.length ≤ g.capacity n := by
  obtain ⟨_, context, hchain, hroots⟩ := h
  have hlength : (f.roots g).length ≤
      g.width * (n * (rankSpan + 1) + rankSpan) + g.width := by
    obtain ⟨first, second, rfl, hfirst, hsecond⟩ := Forest.exists_append_of_roots hroots
    obtain ⟨hvalid', _⟩ := Forest.valid_append.mp hvalid
    have hcontext := hchain.length_le wf hloops hvalid' hfirst
    have hread : first.yield.length ≤ n := by
      rw [Forest.yield_append, List.length_append] at hn
      omega
    have hmul := Nat.mul_le_mul_left g.width
      (Nat.add_le_add_right (Nat.mul_le_mul_right (rankSpan + 1) hread) rankSpan)
    have htake : (second.roots g).length ≤ g.width := by
      rw [hsecond, List.length_take]
      exact Nat.le_trans (Nat.min_le_right _ _) (g.length_rightOf_le _)
    rw [Forest.roots_append, List.length_append, hfirst]
    omega
  have hreachable : ∀ x ∈ f.roots g, g.Reachable x := by
    intro x hx
    refine hchain.reachable wf ?_
    rw [hroots] at hx
    exact (List.mem_append.mp hx).elim (List.mem_append_left _)
      fun htake => List.mem_append_right _ (List.mem_of_mem_take htake)
  refine Nat.le_trans (Forest.length_postorder_le fun front r children back e => ?_)
    (Nat.mul_le_mul_right _ hlength)
  refine Nat.lt_of_lt_of_le (length_postorder_lt hloops hvalid hreachable front r children back e)
    (growth_le_growth ?_)
  have hyield : children.yield.length ≤ n := by
    rw [e, Forest.yield_append, List.length_append] at hn
    have : (Forest.node r children back).yield.length =
        children.yield.length + back.yield.length := List.length_append
    omega
  have hmul := Nat.mul_le_mul_right (rankSpan + 1) hyield
  have hrank : rank g.Becomes (g.leftOf r) ≤ rankSpan := rank_le_card _ _
  omega

end ShiftReduce
