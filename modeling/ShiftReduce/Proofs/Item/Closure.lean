/-
The closure of an item set is the least closed set around it.

`ItemSet.Closure` says which items a kernel calls for, as an inductive relation,
and `mem_close` that closing a set finds exactly these.  One half is that every
item added was called for.  The other is that no visit is missed, and there the
bound of `expand` matters: an item set never outgrows its kernel and the fronts of
all rules, so the visits reach its end before the bound does.  `Walk` is the same
search without a bound, and `walk_iff_eq_close` that the bound makes no
difference.

`close_isClosure` puts together what is known of a closure as a list: what it
begins with, what its kernel is, why each of the other items is there, and that
neither the order of the items that were closed nor closing twice makes a
difference.
-/
import ShiftReduce.Item.Set
import ShiftReduce.Proofs.Grammar.WellFormed
import Mathlib.Data.List.Nodup
import Mathlib.Order.Bounds.Defs

namespace ShiftReduce
namespace ItemSet

/-- What a kernel calls for: itself, and the rules of every nonterminal behind a
dot with the dot in front. -/
inductive Closure (g : Grammar) (kernel : List Item) : Item → Prop
  | kernel {item : Item} : item ∈ kernel → Closure g kernel item
  | front {parent : Item} {x : SymbolId} {r : RuleId} :
      Closure g kernel parent → parent.next? g = some x → g.isNonterminal x = true →
        r ∈ g.rulesFor x → Closure g kernel ⟨r, 0⟩

/-- Every item has what it calls for beside it. -/
def Closed (g : Grammar) (items : List Item) : Prop :=
  ∀ parent ∈ items, ∀ child ∈ introduced g parent, child ∈ items

theorem mem_introduced {g : Grammar} {parent child : Item} :
    child ∈ introduced g parent ↔ ∃ (x : SymbolId) (r : RuleId), parent.next? g = some x ∧
      g.isNonterminal x = true ∧ r ∈ g.rulesFor x ∧ child = ⟨r, 0⟩ := by
  unfold introduced
  cases hx : parent.next? g with
  | none => simp
  | some x =>
    by_cases hn : g.isNonterminal x = true
    · simp only [hn, if_true, List.mem_map]
      constructor
      · rintro ⟨r, hr, rfl⟩
        exact ⟨x, r, rfl, hn, hr, rfl⟩
      · rintro ⟨y, r, hy, _, hr, rfl⟩
        cases hy
        exact ⟨r, hr, rfl⟩
    · simp only [hn]
      constructor
      · intro h
        exact absurd h List.not_mem_nil
      · rintro ⟨y, r, hy, hny, _⟩
        cases hy
        exact absurd hny hn

/-- With every item that has a nonterminal behind its dot, all rules of that
nonterminal with the dot in front. -/
def Complete (g : Grammar) (items : Set Item) : Prop :=
  ∀ parent ∈ items, ∀ (x : SymbolId) (r : RuleId), parent.next? g = some x →
    g.isNonterminal x = true → r ∈ g.rulesFor x → (⟨r, 0⟩ : Item) ∈ items

theorem complete_iff_closed {g : Grammar} {items : List Item} :
    Complete g {item | item ∈ items} ↔ Closed g items := by
  constructor
  · intro h parent hparent child hchild
    obtain ⟨x, r, hx, hn, hr, rfl⟩ := mem_introduced.mp hchild
    exact h parent hparent x r hx hn hr
  · intro h parent hparent x r hx hn hr
    exact h parent hparent _ (mem_introduced.mpr ⟨x, r, hx, hn, hr, rfl⟩)

theorem Closure.of_introduced {g : Grammar} {kernel : List Item} {parent child : Item}
    (h : Closure g kernel parent) (hchild : child ∈ introduced g parent) :
    Closure g kernel child := by
  obtain ⟨x, r, hx, hn, hr, rfl⟩ := mem_introduced.mp hchild
  exact .front h hx hn hr

/-- The closure is the least complete set that has the kernel. -/
theorem Closure.mem_of_complete {g : Grammar} {kernel : List Item} {items : Set Item}
    {item : Item} (h : Closure g kernel item) (hkernel : ∀ k ∈ kernel, k ∈ items)
    (hcomplete : Complete g items) : item ∈ items := by
  induction h with
  | kernel hk => exact hkernel _ hk
  | front _ hx hn hr ih => exact hcomplete _ ih _ _ hx hn hr

theorem Closure.mem_of_closed {g : Grammar} {kernel items : List Item} {item : Item}
    (h : Closure g kernel item) (hkernel : ∀ k ∈ kernel, k ∈ items) (hclosed : Closed g items) :
    item ∈ items :=
  h.mem_of_complete hkernel (complete_iff_closed.mpr hclosed)

theorem Closure.mono {g : Grammar} {kernel kernel' : List Item} {item : Item}
    (h : Closure g kernel item) (hsub : ∀ k ∈ kernel, k ∈ kernel') : Closure g kernel' item := by
  induction h with
  | kernel hk => exact .kernel (hsub _ hk)
  | front _ hx hn hr ih => exact .front ih hx hn hr

/-- The order of the kernel makes no difference. -/
theorem Closure.congr {g : Grammar} {kernel kernel' : List Item} {item : Item}
    (h : ∀ k, k ∈ kernel ↔ k ∈ kernel') : Closure g kernel item ↔ Closure g kernel' item :=
  ⟨fun hitem => hitem.mono fun k => (h k).mp, fun hitem => hitem.mono fun k => (h k).mpr⟩

theorem Closure.mem_kernel {g : Grammar} {kernel : List Item} {item : Item}
    (h : Closure g kernel item) (hdot : item.dot ≠ 0) : item ∈ kernel := by
  cases h with
  | kernel hk => exact hk
  | front _ _ _ _ => exact absurd rfl hdot

/-! ## Visiting -/

/-- The fronts of all rules: nothing else is ever added to a set. -/
def fronts (g : Grammar) : List Item :=
  (List.range g.rules.length).map fun i => ⟨Handle.ofNat i, 0⟩

theorem length_fronts (g : Grammar) : (fronts g).length = g.rules.length := by
  rw [fronts, List.length_map, List.length_range]

theorem mem_fronts_of_introduced {g : Grammar} {parent child : Item}
    (h : child ∈ introduced g parent) : child ∈ fronts g := by
  obtain ⟨x, r, _, _, hr, rfl⟩ := mem_introduced.mp h
  rw [Grammar.rulesFor_eq] at hr
  obtain ⟨⟨rule, i⟩, hmem, rfl⟩ := List.mem_map.mp hr
  have hi := List.mem_zipIdx_iff_getElem?.mp (List.mem_filter.mp hmem).1
  exact List.mem_map.mpr
    ⟨i, List.mem_range.mpr (List.getElem?_eq_some_iff.mp hi).1, rfl⟩

/-- How far a walk over a growing set has come: everything in the set was called
for, and all positions before the present one have what they call for. -/
structure Visited (g : Grammar) (kernel : List Item) (position : Nat) (s : ItemSet) : Prop where
  called : ∀ item ∈ s.items, Closure g kernel item
  kernel_mem : ∀ k ∈ kernel, k ∈ s.items
  limited : ∀ item ∈ s.items, item ∈ kernel ++ fronts g
  settled : ∀ (p : Nat) (item : Item), p < position → s.items[p]? = some item →
    ∀ child ∈ introduced g item, child ∈ s.items

/-- One visit moves the walk on by one position.  Items already there keep their
positions, so what was settled stays settled. -/
theorem Visited.visit {g : Grammar} {kernel : List Item} {position : Nat} {s : ItemSet}
    {item : Item} (v : Visited g kernel position s) (h : s.items[position]? = some item) :
    Visited g kernel (position + 1) (s.addAll (introduced g item)) := by
  have hitem : item ∈ s.items := List.mem_of_getElem? h
  refine
    { called := fun x hx => ?_
      kernel_mem := fun k hk => mem_items_addAll.mpr (Or.inl (v.kernel_mem k hk))
      limited := fun x hx => ?_
      settled := fun p x hp hx child hchild => ?_ }
  · rcases mem_items_addAll.mp hx with hx | hx
    · exact v.called x hx
    · exact (v.called item hitem).of_introduced hx
  · rcases mem_items_addAll.mp hx with hx | hx
    · exact v.limited x hx
    · exact List.mem_append_right _ (mem_fronts_of_introduced hx)
  · have hlt : p < s.items.length := by
      have := (List.getElem?_eq_some_iff.mp h).1
      omega
    have hold : s.items[p]? = some x := by
      obtain ⟨added, hadded⟩ := items_prefix_addAll s (introduced g item)
      rw [← hx, ← hadded, List.getElem?_append_left hlt]
    rcases Nat.lt_succ_iff_lt_or_eq.mp hp with hp | rfl
    · exact mem_items_addAll.mpr (Or.inl (v.settled p x hp hold child hchild))
    · rw [h] at hold
      cases hold
      exact mem_items_addAll.mpr (Or.inr hchild)

/-- A set that a walk leaves behind is no longer than its kernel and the fronts of
the rules together. -/
theorem Visited.length_le {g : Grammar} {kernel : List Item} {position : Nat} {s : ItemSet}
    (v : Visited g kernel position s) : s.items.length ≤ kernel.length + g.rules.length := by
  have h := s.nodup.length_le_of_subset v.limited
  rw [List.length_append, length_fronts] at h
  exact h

/-! ## Walking without a bound -/

/-- The walk from a position on: what the item there calls for is added at the end,
and the walk is over where there is no item. -/
inductive Walk (g : Grammar) : Nat → ItemSet → ItemSet → Prop
  | done {position : Nat} {s : ItemSet} : s.items.length ≤ position → Walk g position s s
  | visit {position : Nat} {s t : ItemSet} {item : Item} : s.items[position]? = some item →
      Walk g (position + 1) (s.addAll (introduced g item)) t → Walk g position s t

/-- A walk has one outcome. -/
theorem Walk.unique {g : Grammar} {position : Nat} {s t u : ItemSet} (ht : Walk g position s t)
    (hu : Walk g position s u) : t = u := by
  induction ht with
  | done hend =>
    cases hu with
    | done _ => rfl
    | visit hitem _ => exact absurd (List.getElem?_eq_some_iff.mp hitem).1 (Nat.not_lt_of_le hend)
  | visit hitem _ ih =>
    cases hu with
    | done hend => exact absurd (List.getElem?_eq_some_iff.mp hitem).1 (Nat.not_lt_of_le hend)
    | visit hitem' hu =>
      rw [hitem] at hitem'
      cases hitem'
      exact ih hu

/-- What was visited along a walk is everything there is in the end. -/
theorem Visited.of_walk {g : Grammar} {kernel : List Item} {position : Nat} {s t : ItemSet}
    (v : Visited g kernel position s) (h : Walk g position s t) :
    Visited g kernel t.items.length t := by
  induction h with
  | done hend =>
    exact { v with settled := fun p item hp => v.settled p item (Nat.lt_of_lt_of_le hp hend) }
  | visit hitem _ ih => exact ih (v.visit hitem)

/-- With a large enough bound the walk goes on to its end.  What is left of the bound
and the positions that are behind add up to no less than the set can hold. -/
theorem Visited.walk_expand {g : Grammar} {kernel : List Item} {bound position : Nat}
    {s : ItemSet} (v : Visited g kernel position s)
    (hbound : kernel.length + g.rules.length ≤ bound + position) :
    Walk g position s (expand g bound position s) := by
  induction bound generalizing position s with
  | zero =>
    have hlength := v.length_le
    exact .done (by omega)
  | succ bound ih =>
    unfold ItemSet.expand
    cases hitem : s.items[position]? with
    | none => exact .done (List.getElem?_eq_none_iff.mp hitem)
    | some item => exact .visit hitem (ih (v.visit hitem) (by omega))

/-- Before the first visit. -/
theorem visited_start (g : Grammar) (s : ItemSet) :
    Visited g s.items 0 { s with kernelSize := s.size } :=
  { called := fun _ h => .kernel h
    kernel_mem := fun _ h => h
    limited := fun _ h => List.mem_append_left _ h
    settled := fun _ _ hp => absurd hp (Nat.not_lt_zero _) }

theorem walk_close (g : Grammar) (s : ItemSet) :
    Walk g 0 { s with kernelSize := s.size } (s.close g) :=
  (visited_start g s).walk_expand (Nat.le_refl _)

/-- The walk over a set whose items have become its kernel ends, and with the closure. -/
theorem walk_iff_eq_close {g : Grammar} {s t : ItemSet} :
    Walk g 0 { s with kernelSize := s.size } t ↔ t = s.close g := by
  constructor
  · exact fun h => h.unique (walk_close g s)
  · rintro rfl
    exact walk_close g s

theorem visited_close (g : Grammar) (s : ItemSet) :
    Visited g s.items (s.close g).items.length (s.close g) :=
  (visited_start g s).of_walk (walk_close g s)

theorem closed_close (g : Grammar) (s : ItemSet) : Closed g (s.close g).items := by
  intro parent hparent child hchild
  obtain ⟨p, hp, rfl⟩ := List.mem_iff_getElem.mp hparent
  exact (visited_close g s).settled p _ hp (List.getElem?_eq_getElem hp) child hchild

/-- Closing a set finds exactly what its items call for. -/
theorem mem_close {g : Grammar} {s : ItemSet} {item : Item} :
    item ∈ (s.close g).items ↔ Closure g s.items item := by
  constructor
  · exact (visited_close g s).called item
  · intro h
    exact h.mem_of_closed (visited_close g s).kernel_mem (closed_close g s)

/-! ## What a closure is as a list -/

theorem Walk.prefix_items {g : Grammar} {position : Nat} {s t : ItemSet}
    (h : Walk g position s t) : s.items <+: t.items := by
  induction h with
  | done _ => exact List.prefix_rfl
  | visit _ _ ih => exact (items_prefix_addAll _ _).trans ih

theorem Walk.kernelSize_eq {g : Grammar} {position : Nat} {s t : ItemSet}
    (h : Walk g position s t) : t.kernelSize = s.kernelSize := by
  induction h with
  | done _ => rfl
  | visit _ _ ih => exact ih.trans (kernelSize_addAll _ _)

/-- Every item outside the kernel stands behind one that calls for it. -/
def Justified (g : Grammar) (s : ItemSet) : Prop :=
  ∀ (position : Nat) (item : Item), s.kernelSize ≤ position → s.items[position]? = some item →
    ∃ (earlier : Nat) (parent : Item), earlier < position ∧ s.items[earlier]? = some parent ∧
      item ∈ introduced g parent

theorem Justified.add {g : Grammar} {s : ItemSet} (h : s.Justified g) {parent item : Item}
    (hparent : parent ∈ s.items) (hitem : item ∈ introduced g parent) :
    (s.add item).Justified g := by
  by_cases hmem : item ∈ s.items
  · have hsame : s.add item = s := by
      rw [ItemSet.add, dif_pos hmem]
    rw [hsame]
    exact h
  · have hitems : (s.add item).items = s.items ++ [item] := by
      rw [items_add, if_neg hmem]
    -- items already there keep their positions
    have hold : ∀ (p : Nat) (i : Item), s.items[p]? = some i → (s.add item).items[p]? = some i := by
      intro p i hi
      have hp := (List.getElem?_eq_some_iff.mp hi).1
      rw [hitems, List.getElem?_append_left hp]
      exact hi
    intro position i hkernel hi
    rw [kernelSize_add] at hkernel
    by_cases hp : position < s.items.length
    · rw [hitems, List.getElem?_append_left hp] at hi
      obtain ⟨earlier, parent', hlt, hparent', hcalled⟩ := h position i hkernel hi
      exact ⟨earlier, parent', hlt, hold _ _ hparent', hcalled⟩
    · have hi' : i = item := by
        rw [hitems, List.getElem?_append_right (Nat.le_of_not_lt hp)] at hi
        exact List.mem_singleton.mp (List.mem_of_getElem? hi)
      obtain ⟨earlier, hearlier⟩ := List.mem_iff_getElem?.mp hparent
      have hlt := (List.getElem?_eq_some_iff.mp hearlier).1
      exact ⟨earlier, parent, by omega, hold _ _ hearlier, hi' ▸ hitem⟩

theorem Justified.addAll {g : Grammar} {items : List Item} {s : ItemSet} (h : s.Justified g)
    {parent : Item} (hparent : parent ∈ s.items)
    (hitems : ∀ item ∈ items, item ∈ introduced g parent) : (s.addAll items).Justified g := by
  induction items generalizing s with
  | nil => exact h
  | cons item rest ih =>
    have hstep := h.add hparent (hitems item List.mem_cons_self)
    exact ih hstep (mem_items_add.mpr (Or.inl hparent))
      fun i hi => hitems i (List.mem_cons_of_mem item hi)

theorem Justified.of_walk {g : Grammar} {position : Nat} {s t : ItemSet} (h : s.Justified g)
    (hwalk : Walk g position s t) : t.Justified g := by
  induction hwalk with
  | done _ => exact h
  | visit hitem _ ih => exact ih (h.addAll (List.mem_of_getElem? hitem) fun _ hchild => hchild)

/-- Closing makes a kernel of what is there, and adds nothing that is not called for. -/
theorem justified_close (g : Grammar) (s : ItemSet) : (s.close g).Justified g := by
  refine Justified.of_walk (fun position item hkernel hitem => ?_) (walk_close g s)
  have hlt : position < s.items.length := (List.getElem?_eq_some_iff.mp hitem).1
  exact absurd hlt (Nat.not_lt_of_le hkernel)

theorem kernelSize_close (g : Grammar) (s : ItemSet) :
    (s.close g).kernelSize = s.items.length :=
  (walk_close g s).kernelSize_eq

/-- What a list of items has to be to be the closure of another. -/
structure IsClosure (g : Grammar) (s t : ItemSet) : Prop where
  nodup : t.items.Nodup
  prefix_items : s.items <+: t.items
  kernelSize_eq : t.kernelSize = s.items.length
  least : IsLeast {items : Set Item | (∀ k ∈ s.items, k ∈ items) ∧ Complete g items}
    {item | item ∈ t.items}
  introduced : ∀ (position : Nat) (item : Item), s.items.length ≤ position →
    t.items[position]? = some item → item.dot = 0 ∧
      ∃ (earlier : Nat) (parent : Item) (x : SymbolId), earlier < position ∧
        t.items[earlier]? = some parent ∧ parent.next? g = some x ∧ g.isNonterminal x = true ∧
        item.rule ∈ g.rulesFor x

theorem isClosure_close (g : Grammar) (s : ItemSet) : IsClosure g s (s.close g) where
  nodup := (s.close g).nodup
  prefix_items := (walk_close g s).prefix_items
  kernelSize_eq := kernelSize_close g s
  least := by
    refine ⟨⟨(visited_close g s).kernel_mem, complete_iff_closed.mpr (closed_close g s)⟩, ?_⟩
    rintro items ⟨hkernel, hcomplete⟩ item hitem
    exact (mem_close.mp hitem).mem_of_complete hkernel hcomplete
  introduced := fun position item hposition hitem => by
    obtain ⟨earlier, parent, hlt, hparent, hcalled⟩ :=
      justified_close g s position item (kernelSize_close g s ▸ hposition) hitem
    obtain ⟨x, r, hx, hn, hr, rfl⟩ := mem_introduced.mp hcalled
    exact ⟨rfl, earlier, parent, x, hlt, hparent, hx, hn, hr⟩

/-- What an item calls for belongs to the grammar, whether the item does or not. -/
theorem Closure.belongsTo {g : Grammar} {kernel : List Item} {item : Item}
    (h : Closure g kernel item) (hkernel : ∀ k ∈ kernel, k.BelongsTo g) : item.BelongsTo g := by
  cases h with
  | kernel hk => exact hkernel _ hk
  | front _ _ _ hr => exact ⟨Grammar.index_lt_of_mem_rulesFor hr, Nat.zero_le _⟩

/-! ## The order of the items -/

theorem mem_close_of_perm {g : Grammar} {s t : ItemSet} (h : s.items.Perm t.items) {item : Item} :
    item ∈ (s.close g).items ↔ item ∈ (t.close g).items := by
  rw [mem_close, mem_close]
  exact Closure.congr fun _ => h.mem_iff

/-! ## Closing again -/

theorem items_addAll_of_subset {s : ItemSet} {items : List Item} (h : ∀ x ∈ items, x ∈ s.items) :
    (s.addAll items).items = s.items := by
  induction items generalizing s with
  | nil => rfl
  | cons item rest ih =>
    have step : s.addAll (item :: rest) = (s.add item).addAll rest := rfl
    have hadd : (s.add item).items = s.items := by
      rw [items_add, if_pos (h item List.mem_cons_self)]
    rw [step, ih, hadd]
    intro x hx
    rw [hadd]
    exact h x (List.mem_cons_of_mem item hx)

theorem items_expand_of_closed {g : Grammar} {bound position : Nat} {s : ItemSet}
    (h : Closed g s.items) : (expand g bound position s).items = s.items := by
  induction bound generalizing position s with
  | zero => rfl
  | succ bound ih =>
    unfold ItemSet.expand
    cases hp : s.items[position]? with
    | none => rfl
    | some item =>
      have hadd : (s.addAll (introduced g item)).items = s.items :=
        items_addAll_of_subset (h item (List.mem_of_getElem? hp))
      show (expand g bound (position + 1) (s.addAll (introduced g item))).items = s.items
      rw [ih (hadd ▸ h), hadd]

theorem items_close_of_closed {g : Grammar} {s : ItemSet} (h : Closed g s.items) :
    (s.close g).items = s.items :=
  items_expand_of_closed (s := { s with kernelSize := s.size }) h

/-! ## The closure -/

/-- A walk without a bound finds the closure and nothing else; the closure is the least
complete list that begins with what was there, in which every further item stands behind
one that calls for it; the order of the items closed decides neither what it holds nor
its key; and what is closed does not change when it is closed.  The last part says what
the rules of a nonterminal are as long as every rule has a handle of its own. -/
theorem close_isClosure (g : Grammar) (s : ItemSet) :
    (∀ t, Walk g 0 { s with kernelSize := s.size } t ↔ t = s.close g) ∧
    IsClosure g s (s.close g) ∧
    ((∀ item ∈ s.items, item.BelongsTo g) → ∀ item ∈ (s.close g).items, item.BelongsTo g) ∧
    (∀ t : ItemSet, s.items.Perm t.items →
      (s.close g).same (t.close g) = true ∧ (s.close g).key = (t.close g).key) ∧
    (Complete g {item | item ∈ s.items} → (s.close g).items = s.items) ∧
    ((s.close g).close g).items = (s.close g).items ∧
    (g.rules.length ≤ handleSpan → ∀ (x : SymbolId) (r : RuleId),
      r ∈ g.rulesFor x ↔ ∃ rule, g.rule? r = some rule ∧ rule.left = x) := by
  refine ⟨fun t => walk_iff_eq_close, isClosure_close g s,
    fun hvalid item hitem => (mem_close.mp hitem).belongsTo hvalid,
    fun t hperm => ⟨?_, ?_⟩, fun hcomplete => ?_, ?_,
    fun hrules x r => Grammar.mem_rulesFor_iff hrules⟩
  · exact same_iff.mpr fun item => mem_close_of_perm hperm
  · exact key_eq_iff.mpr fun item => mem_close_of_perm hperm
  · exact items_close_of_closed (complete_iff_closed.mp hcomplete)
  · exact items_close_of_closed (closed_close g s)

/-- `$accept -> S`, `S -> A | b S`, `A -> b | S`: the two nonterminals call for each
other. -/
def mutualGrammar : Grammar :=
  let s : SymbolId := Handle.ofNat 2
  let a : SymbolId := Handle.ofNat 3
  let b : SymbolId := Handle.ofNat 4
  { symbols :=
      [⟨Symbol.endName, .endMarker⟩, ⟨Symbol.acceptName, .nonterminal⟩, ⟨"S", .nonterminal⟩,
        ⟨"A", .nonterminal⟩, ⟨"b", .terminal⟩]
    names := [("b", b), ("A", a), ("S", s), (Symbol.acceptName, .accept), (Symbol.endName, .endMarker)]
    rules :=
      [Builder.acceptRule s, ⟨s, [a], 0, [none], none⟩, ⟨s, [b, s], 0, [none, none], none⟩,
        ⟨a, [b], 0, [none], none⟩, ⟨a, [s], 0, [none], none⟩]
    rulesByLeft :=
      [[], [Handle.ofNat 0], [Handle.ofNat 1, Handle.ofNat 2], [Handle.ofNat 3, Handle.ofNat 4], []]
    filed := rfl
    nullable := ∅
    first := [{.endMarker}, {b}, {b}, {b}, {b}] }

/-- `S -> • A` before `$accept -> • S`, and the other way round: the lists differ, and what
they hold does not. -/
theorem close_isClosure_mutual :
    let forward := ofList [⟨Handle.ofNat 1, 0⟩, ⟨Handle.ofNat 0, 0⟩]
    let backward := ofList [⟨Handle.ofNat 0, 0⟩, ⟨Handle.ofNat 1, 0⟩]
    let g := mutualGrammar
    forward.items.Perm backward.items ∧ (forward.close g).items ≠ (backward.close g).items ∧
      (∀ item ∈ forward.items, item.BelongsTo g) ∧ g.rules.length ≤ handleSpan ∧
      (∀ item ∈ (forward.close g).items, item.BelongsTo g) ∧
      (forward.close g).same (backward.close g) = true ∧
      (forward.close g).key = (backward.close g).key ∧
      ((forward.close g).items.map fun item => item.rule.index) = [1, 0, 3, 4, 2] ∧
      (forward.close g).kernelSize = 2 ∧
      (∃ rule, g.rule? (Handle.ofNat 4) = some rule ∧ rule.left = Handle.ofNat 3) := by
  intro forward backward g
  obtain ⟨-, hclosure, hbelongs, hperm, -, -, hrules⟩ := close_isClosure g forward
  have hswap : forward.items.Perm backward.items := by decide
  have hvalid : ∀ item ∈ forward.items, item.BelongsTo g := by decide
  have hcount : g.rules.length ≤ handleSpan := by decide
  obtain ⟨hsame, hkey⟩ := hperm backward hswap
  exact ⟨hswap, by decide, hvalid, hcount, hbelongs hvalid, hsame, hkey, by decide,
    hclosure.kernelSize_eq, (hrules hcount _ _).mp (by decide)⟩

end ItemSet
end ShiftReduce
