/-
Derivations.

A derivation replaces left sides of rules by right sides.  A rightmost one always
takes the last nonterminal, and is told with the rules it uses in their order: run
backwards, these are the reductions of a parser.
-/
import ShiftReduce.Proofs.Grammar.WellFormed
import Mathlib.Logic.Relation

namespace ShiftReduce
namespace Grammar

/-- The left side of a rule, somewhere in a sequence, is replaced by its right side. -/
inductive Rewrites (g : Grammar) : List SymbolId → List SymbolId → Prop
  | replace {r : RuleId} (front back : List SymbolId) : r.index < g.rules.length →
      Rewrites g (front ++ g.leftOf r :: back) (front ++ g.rightOf r ++ back)

def Derives (g : Grammar) : List SymbolId → List SymbolId → Prop :=
  Relation.ReflTransGen g.Rewrites

section Context

variable {g : Grammar}

theorem Rewrites.append {xs ys : List SymbolId} (h : g.Rewrites xs ys)
    (before behind : List SymbolId) :
    g.Rewrites (before ++ xs ++ behind) (before ++ ys ++ behind) := by
  cases h with
  | @replace r front back hr =>
    have e : ∀ middle : List SymbolId, before ++ (front ++ middle ++ back) ++ behind =
        before ++ front ++ middle ++ (back ++ behind) := by
      intro middle
      simp only [List.append_assoc]
    have hreplace := Rewrites.replace (before ++ front) (back ++ behind) hr
    rw [e, List.append_cons front, e, ← List.append_cons]
    exact hreplace

/-- A derivation goes on in any context. -/
theorem Derives.append {xs ys : List SymbolId} (h : g.Derives xs ys)
    (before behind : List SymbolId) :
    g.Derives (before ++ xs ++ behind) (before ++ ys ++ behind) := by
  induction h with
  | refl => exact .refl
  | tail _ hstep ih => exact ih.tail (hstep.append before behind)

theorem Derives.both {xs xs' ys ys' : List SymbolId} (h : g.Derives xs xs')
    (h' : g.Derives ys ys') : g.Derives (xs ++ ys) (xs' ++ ys') := by
  have first : g.Derives (xs ++ ys) (xs' ++ ys) := h.append [] ys
  have second : g.Derives (xs' ++ ys ++ []) (xs' ++ ys' ++ []) := h'.append xs' []
  rw [List.append_nil, List.append_nil] at second
  exact first.trans second

theorem derives_rightOf {r : RuleId} (hr : r.index < g.rules.length) :
    g.Derives [g.leftOf r] (g.rightOf r) := by
  have hstep : g.Rewrites ([] ++ g.leftOf r :: []) ([] ++ g.rightOf r ++ []) := .replace [] [] hr
  rw [List.nil_append, List.append_nil] at hstep
  exact .single hstep

theorem derives_nil_of_forall {xs : List SymbolId} (h : ∀ x ∈ xs, g.Derives [x] []) :
    g.Derives xs [] := by
  induction xs with
  | nil => exact .refl
  | cons x rest ih =>
    have hx := h x List.mem_cons_self
    exact hx.both (ih fun y hy => h y (List.mem_cons_of_mem x hy))

/-- Input derives nothing but itself. -/
theorem Derives.eq_of_terminals (wf : g.WellFormed) {xs ys : List SymbolId}
    (h : g.Derives xs ys) (hxs : ∀ x ∈ xs, g.isTerminal x = true) : ys = xs := by
  induction h with
  | refl => rfl
  | tail _ hstep ih =>
    cases hstep with
    | @replace r front back hr =>
      have hleft := hxs (g.leftOf r) (ih ▸ List.mem_append_right front List.mem_cons_self)
      rw [isTerminal_of_isNonterminal (wf.isNonterminal_leftOf hr)] at hleft
      cases hleft

/-- The end marker stands in no right side, so nothing derives it. -/
theorem Derives.endMarker_not_mem (wf : g.WellFormed) {xs ys : List SymbolId}
    (h : g.Derives xs ys) (hxs : SymbolId.endMarker ∉ xs) : SymbolId.endMarker ∉ ys := by
  induction h with
  | refl => exact hxs
  | tail _ hstep ih =>
    cases hstep with
    | @replace r front back hr =>
      intro hmem
      rcases List.mem_append.mp hmem with hmem | hmem
      · rcases List.mem_append.mp hmem with hmem | hmem
        · exact ih (List.mem_append_left _ hmem)
        · exact (wf.mem_rightOf hmem).2.1 rfl
      · exact ih (List.mem_append_right _ (List.mem_cons_of_mem _ hmem))

end Context

/-- A derivation by these rules in this order, each replacing a nonterminal with
only terminals behind it. -/
inductive Rightmost (g : Grammar) : List RuleId → List SymbolId → List SymbolId → Prop
  | done {xs : List SymbolId} : Rightmost g [] xs xs
  | replace {r : RuleId} {rs : List RuleId} {front back ys : List SymbolId} :
      r.index < g.rules.length → (∀ x ∈ back, g.isTerminal x = true) →
        Rightmost g rs (front ++ g.rightOf r ++ back) ys →
          Rightmost g (r :: rs) (front ++ g.leftOf r :: back) ys

namespace Rightmost

variable {g : Grammar}

theorem derives {rs : List RuleId} {xs ys : List SymbolId} (h : g.Rightmost rs xs ys) :
    g.Derives xs ys := by
  induction h with
  | done => exact .refl
  | replace hr _ _ ih => exact .head (.replace _ _ hr) ih

theorem trans {rs rs' : List RuleId} {xs ys zs : List SymbolId} (h : g.Rightmost rs xs ys)
    (h' : g.Rightmost rs' ys zs) : g.Rightmost (rs ++ rs') xs zs := by
  induction h with
  | done => exact h'
  | replace hr hback _ ih => exact .replace hr hback (ih h')

theorem append_left {rs : List RuleId} {xs ys : List SymbolId} (h : g.Rightmost rs xs ys)
    (zs : List SymbolId) : g.Rightmost rs (zs ++ xs) (zs ++ ys) := by
  induction h with
  | done => exact .done
  | @replace r rs front back ys hr hback _ ih =>
    rw [← List.append_assoc] at ih ⊢
    rw [← List.append_assoc] at ih
    exact .replace hr hback ih

/-- What stands behind makes no difference if it is made of terminals. -/
theorem append_right {rs : List RuleId} {xs ys zs : List SymbolId} (h : g.Rightmost rs xs ys)
    (hzs : ∀ x ∈ zs, g.isTerminal x = true) : g.Rightmost rs (xs ++ zs) (ys ++ zs) := by
  induction h with
  | done => exact .done
  | @replace r rs front back ys hr hback _ ih =>
    rw [List.append_assoc, List.cons_append]
    rw [List.append_assoc] at ih
    refine .replace hr (fun x hx => ?_) ih
    exact (List.mem_append.mp hx).elim (hback x) (hzs x)

end Rightmost

end Grammar
end ShiftReduce
