/-
Nullable symbols and first sets are closed under the rules.

Both tables of a grammar are saturated, so no rule has anything to add to them.
What a forest begins with is therefore in the first set of its roots, and roots
that yield nothing are nullable.  `exists_leading` says more exactly where the
first symbol of a yield comes from, which is the question a lookahead of two
symbols asks.
-/
import ShiftReduce.Proofs.Grammar.Forest
import ShiftReduce.Proofs.Saturation

namespace ShiftReduce

theorem SymbolSet.mem_foldl_union {α : Type} {f : α → SymbolSet} {xs : List α} {s : SymbolSet}
    {y : SymbolId} :
    y ∈ xs.foldl (fun acc x => acc ∪ f x) s ↔ y ∈ s ∨ ∃ x ∈ xs, y ∈ f x := by
  induction xs generalizing s with
  | nil =>
    refine ⟨Or.inl, fun h => h.elim id ?_⟩
    rintro ⟨x, hx, _⟩
    exact absurd hx List.not_mem_nil
  | cons x rest ih =>
    rw [List.foldl_cons, ih, SymbolSet.mem_union, List.exists_mem_cons_iff, or_assoc]

theorem mem_firstOfSequence {nullable : SymbolSet} {table : List SymbolSet} {xs : List SymbolId}
    {y : SymbolId} :
    y ∈ firstOfSequence nullable table xs ↔
      ∃ x ∈ leadingSymbols nullable xs, y ∈ setAt table x := by
  rw [firstOfSequence, SymbolSet.mem_foldl_union]
  exact ⟨fun h => h.resolve_left (SymbolSet.not_mem_empty y), Or.inr⟩

theorem getElem?_leadingSymbols {nullable : SymbolSet} {front back : List SymbolId} {x : SymbolId}
    (h : ∀ y ∈ front, nullable.contains y = true) :
    (leadingSymbols nullable (front ++ x :: back))[front.length]? = some x := by
  induction front with
  | nil => rfl
  | cons y front ih =>
    rw [List.cons_append, leadingSymbols, if_pos (h y List.mem_cons_self), List.length_cons,
      List.getElem?_cons_succ]
    exact ih fun z hz => h z (List.mem_cons_of_mem y hz)

theorem exists_of_getElem?_leadingSymbols {nullable : SymbolSet} {xs : List SymbolId} {n : Nat}
    {x : SymbolId} (h : (leadingSymbols nullable xs)[n]? = some x) :
    ∃ front back : List SymbolId, xs = front ++ x :: back ∧ front.length = n ∧
      ∀ y ∈ front, nullable.contains y = true := by
  induction xs generalizing n with
  | nil => cases h
  | cons y rest ih =>
    cases n with
    | zero =>
      cases h
      exact ⟨[], rest, rfl, rfl, fun z hz => absurd hz List.not_mem_nil⟩
    | succ n =>
      rw [leadingSymbols, List.getElem?_cons_succ] at h
      split at h
      · rename_i hy
        obtain ⟨front, back, rfl, hlength, hfront⟩ := ih h
        exact ⟨y :: front, back, rfl, congrArg (· + 1) hlength,
          List.forall_mem_cons.mpr ⟨hy, hfront⟩⟩
      · cases h

namespace Grammar

variable {g : Grammar}

theorem mem_sequenceFirst {front back : List SymbolId} {x y : SymbolId}
    (hfront : ∀ z ∈ front, g.isNullable z = true) (hy : y ∈ g.firstOf x) :
    y ∈ g.sequenceFirst (front ++ x :: back) :=
  mem_firstOfSequence.mpr ⟨x, List.mem_of_getElem? (getElem?_leadingSymbols hfront), hy⟩

namespace WellFormed

variable (wf : g.WellFormed)

include wf

theorem exists_ruleId {rule : Rule} (h : rule ∈ g.rules) :
    ∃ r : RuleId, r.index < g.rules.length ∧ g.leftOf r = rule.left ∧
      g.rightOf r = rule.right := by
  obtain ⟨n, hn, rfl⟩ := List.mem_iff_getElem.mp h
  have hrule : g.rule? ⟨n, Nat.lt_trans hn wf.rules_lt⟩ = some g.rules[n] :=
    List.getElem?_eq_getElem hn
  exact ⟨_, hn, leftOf_of_rule? hrule, rightOf_of_rule? hrule⟩

theorem left_lt {rule : Rule} (h : rule ∈ g.rules) : rule.left.index < g.symbols.length := by
  obtain ⟨r, hr, hleft, _⟩ := wf.exists_ruleId h
  rw [← hleft]
  exact lt_of_isNonterminal (wf.isNonterminal_leftOf hr)

/-! ## Nullable symbols -/

theorem addNullable_nullable {rule : Rule} (h : rule ∈ g.rules) :
    addNullable g.nullable rule = g.nullable := by
  rw [wf.nullable_eq]
  refine (saturate_foldl_fixed SymbolSet.size _
    (P := fun s : SymbolSet => s.Below g.symbols.length)
    (fun s rule hrule hs => ?_) (fun s rule _ _ => ?_)
    (fun s hs => hs.size_le) (SymbolSet.Below.empty _)).2 rule h
  · rw [addNullable]
    split
    · exact hs.insert (wf.left_lt hrule)
    · exact hs
  · rw [addNullable]
    split
    · exact SymbolSet.eq_or_size_lt fun x hx => SymbolSet.mem_insert.mpr (Or.inr hx)
    · exact Or.inl rfl

theorem isNullable_leftOf {r : RuleId} (hr : r.index < g.rules.length)
    (h : g.sequenceNullable (g.rightOf r) = true) : g.isNullable (g.leftOf r) = true := by
  obtain ⟨rule, hmem, hrule⟩ := exists_rule?_of_lt hr
  rw [rightOf_of_rule? hrule] at h
  have hall : rule.right.all g.nullable.contains = true := h
  rw [leftOf_of_rule? hrule, isNullable, ← wf.addNullable_nullable hmem, addNullable,
    if_pos hall, SymbolSet.contains_iff, SymbolSet.mem_insert]
  exact Or.inl rfl

/-! ## First sets -/

omit wf in
theorem firstOfSequence_below {n : Nat} {nullable : SymbolSet} {table : List SymbolSet}
    (h : SymbolTable.Below n table) (xs : List SymbolId) :
    (firstOfSequence nullable table xs).Below n := by
  intro y hy
  obtain ⟨x, _, hy⟩ := mem_firstOfSequence.mp hy
  exact h.setAt x y hy

theorem initialFirst_below : SymbolTable.Below g.symbols.length (initialFirst g.symbols) := by
  have hlt := wf.symbols_lt
  refine ⟨List.length_mapIdx, fun s hs => ?_⟩
  obtain ⟨i, hi, rfl⟩ := List.mem_mapIdx.mp hs
  split
  · intro x hx
    rw [SymbolSet.mem_singleton.mp hx, Handle.index_ofNat_of_lt (Nat.lt_trans hi hlt)]
    exact hi
  · exact SymbolSet.Below.empty _

omit wf in
theorem mem_initialFirst {x y : SymbolId} :
    y ∈ setAt (initialFirst g.symbols) x ↔ y = x ∧ g.isTerminal x = true := by
  rw [setAt, initialFirst, List.getElem?_mapIdx, isTerminal_iff]
  cases hs : g.symbols[x.index]? with
  | none =>
    refine ⟨fun hy => absurd hy (SymbolSet.not_mem_empty y), ?_⟩
    rintro ⟨_, s, hs, _⟩
    cases hs
  | some s =>
    show y ∈ (if s.isTerminal = true then ({Handle.ofNat x.index} : SymbolSet) else ∅) ↔ _
    rw [Handle.ofNat_index]
    by_cases hterminal : s.isTerminal = true
    · rw [if_pos hterminal, SymbolSet.mem_singleton]
      exact ⟨fun hy => ⟨hy, s, rfl, hterminal⟩, And.left⟩
    · rw [if_neg hterminal]
      refine ⟨fun hy => absurd hy (SymbolSet.not_mem_empty y), ?_⟩
      rintro ⟨_, s', hs', hterminal'⟩
      cases hs'
      exact absurd hterminal' hterminal

/-- The table of first sets: it has a terminal in its own set, and no rule has
anything to add. -/
theorem first_saturated : SymbolTable.Below g.symbols.length g.first ∧
    (∀ x, g.isTerminal x = true → x ∈ g.firstOf x) ∧
    ∀ rule ∈ g.rules, addFirst g.nullable g.first rule = g.first := by
  have saturated := saturate_foldl_fixed SymbolTable.weight (g.symbols.length * g.symbols.length)
    (P := fun table : List SymbolSet => SymbolTable.Below g.symbols.length table ∧
      ∀ x, g.isTerminal x = true → x ∈ setAt table x)
    (f := addFirst g.nullable)
    (fun table rule (_ : rule ∈ g.rules) h => ⟨h.1.modify_union _ (firstOfSequence_below h.1 _),
      fun x hx => SymbolTable.mem_setAt_modify.mpr (Or.inl (h.2 x hx))⟩)
    (fun table rule _ _ => SymbolTable.modify_union table _ _)
    (fun table h => h.1.weight_le)
    ⟨wf.initialFirst_below, fun x hx => mem_initialFirst.mpr ⟨rfl, hx⟩⟩
  have result : g.first = saturate (fun table => g.rules.foldl (addFirst g.nullable) table)
      (g.symbols.length * g.symbols.length + 1) (initialFirst g.symbols) := wf.first_eq
  rw [← result] at saturated
  exact ⟨saturated.1.1, saturated.1.2, saturated.2⟩

theorem mem_firstOf_self {x : SymbolId} (h : g.isTerminal x = true) : x ∈ g.firstOf x :=
  wf.first_saturated.2.1 x h

theorem sequenceFirst_below (xs : List SymbolId) :
    (g.sequenceFirst xs).Below g.symbols.length :=
  firstOfSequence_below wf.first_saturated.1 xs

theorem mem_firstOf_leftOf {r : RuleId} (hr : r.index < g.rules.length) {y : SymbolId}
    (hy : y ∈ g.sequenceFirst (g.rightOf r)) : y ∈ g.firstOf (g.leftOf r) := by
  obtain ⟨rule, hmem, hrule⟩ := exists_rule?_of_lt hr
  rw [rightOf_of_rule? hrule] at hy
  rw [leftOf_of_rule? hrule]
  obtain ⟨hbelow, _, hfixed⟩ := wf.first_saturated
  refine SymbolTable.subset_of_modify_eq ?_ (hfixed rule hmem) hy
  rw [hbelow.length_eq]
  exact wf.left_lt hmem

end WellFormed

end Grammar

/-! ## What forests begin with -/

namespace Forest

variable {g : Grammar} (wf : g.WellFormed)

include wf

theorem sequenceNullable_roots {f : Forest} (hvalid : f.Valid g) (h : f.yield = []) :
    g.sequenceNullable (f.roots g) = true := by
  induction f with
  | nil => rfl
  | leaf x rest _ => cases h
  | node r children rest ihc ihr =>
    obtain ⟨hr, hroots, hchildren, hrest⟩ := hvalid
    obtain ⟨hc, hy⟩ := List.append_eq_nil_iff.mp h
    have hright := ihc hchildren hc
    rw [hroots] at hright
    rw [roots, Grammar.sequenceNullable, List.all_cons, Bool.and_eq_true]
    exact ⟨wf.isNullable_leftOf hr hright, ihr hrest hy⟩

/-- The first symbol of a yield stems from a root with only nullable ones before
it: either it is that root, or the root is a nonterminal that begins with it. -/
theorem exists_leading {f : Forest} (hvalid : f.Valid g) {t : SymbolId} {v : List SymbolId}
    (ht : g.isTerminal t = true) (h : f.yield = t :: v) :
    ∃ (front : List SymbolId) (x : SymbolId) (back : Forest) (more : List SymbolId),
      f.roots g = front ++ x :: back.roots g ∧ (∀ y ∈ front, g.isNullable y = true) ∧
      back.Valid g ∧ v = more ++ back.yield ∧ t ∈ g.firstOf x ∧
      (x = t ∧ more = [] ∨ g.isNonterminal x = true) := by
  induction f generalizing v with
  | nil => cases h
  | leaf x rest _ =>
    cases h
    exact ⟨[], t, rest, [], rfl, fun y hy => absurd hy List.not_mem_nil, hvalid, rfl,
      wf.mem_firstOf_self ht, Or.inl ⟨rfl, rfl⟩⟩
  | node r children rest ihc ihr =>
    obtain ⟨hr, hroots, hchildren, hrest⟩ := hvalid
    have h : children.yield ++ rest.yield = t :: v := h
    cases hc : children.yield with
    | nil =>
      rw [hc] at h
      obtain ⟨front, x, back, more, hfront, hnullable, hx⟩ := ihr hrest h
      have hright := sequenceNullable_roots wf hchildren hc
      rw [hroots] at hright
      refine ⟨g.leftOf r :: front, x, back, more, by rw [roots, hfront]; rfl, ?_, hx⟩
      exact List.forall_mem_cons.mpr ⟨wf.isNullable_leftOf hr hright, hnullable⟩
    | cons t' more =>
      rw [hc] at h
      cases h
      obtain ⟨front, x, back, _, hfront, hnullable, _, _, hx, _⟩ := ihc hchildren hc
      have hfirst : t ∈ g.firstOf (g.leftOf r) := by
        refine wf.mem_firstOf_leftOf hr ?_
        rw [← hroots, hfront]
        exact Grammar.mem_sequenceFirst hnullable hx
      exact ⟨[], g.leftOf r, rest, more, rfl, fun y hy => absurd hy List.not_mem_nil, hrest, rfl,
        hfirst, Or.inr (wf.isNonterminal_leftOf hr)⟩

theorem mem_sequenceFirst_roots {f : Forest} (hvalid : f.Valid g) {t : SymbolId}
    {v : List SymbolId} (ht : g.isTerminal t = true) (h : f.yield = t :: v) :
    t ∈ g.sequenceFirst (f.roots g) := by
  obtain ⟨front, x, back, _, hroots, hnullable, _, _, hx, _⟩ := exists_leading wf hvalid ht h
  rw [hroots]
  exact Grammar.mem_sequenceFirst hnullable hx

end Forest
end ShiftReduce
