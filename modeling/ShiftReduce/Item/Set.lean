/-
Item sets and their closure.

The items of a set are in a fixed order without repetition, because a transition
refers to the item it stems from by its position.  The items that a set starts
with are its kernel; closing it adds, for every nonterminal behind a dot, the
rules of that nonterminal with the dot in front, and counts everything that was
there before as kernel.

Order and kernel play no part in identity.  `same` compares two sets by their
items alone, and `key` is a list that two sets share exactly when they are the
same in that sense.
-/
import ShiftReduce.Item

namespace ShiftReduce

/-- Items without repetition; the first `kernelSize` of them are the kernel. -/
structure ItemSet where
  items : List Item
  nodup : items.Nodup
  kernelSize : Nat
deriving DecidableEq

namespace ItemSet

def empty : ItemSet := ⟨[], List.nodup_nil, 0⟩

/-- Adds an item at the end unless it is there already.  The kernel stays what it
was. -/
def add (s : ItemSet) (item : Item) : ItemSet :=
  if h : item ∈ s.items then s
  else
    { s with
      items := s.items ++ [item]
      nodup := List.nodup_append.mpr
        ⟨s.nodup, List.pairwise_singleton _ item, fun a ha b hb e => by
          rw [List.mem_singleton] at hb
          exact h (hb ▸ e ▸ ha)⟩ }

theorem items_add (s : ItemSet) (item : Item) :
    (s.add item).items = if item ∈ s.items then s.items else s.items ++ [item] := by
  unfold add
  split <;> rfl

@[simp] theorem mem_items_add {s : ItemSet} {item x : Item} :
    x ∈ (s.add item).items ↔ x ∈ s.items ∨ x = item := by
  rw [items_add]
  split
  · rename_i h
    exact ⟨Or.inl, fun hx => hx.elim id fun e => e ▸ h⟩
  · rw [List.mem_append, List.mem_singleton]

/-- Nothing in front is disturbed. -/
theorem items_prefix_add (s : ItemSet) (item : Item) : s.items <+: (s.add item).items := by
  rw [items_add]
  split
  · exact List.prefix_rfl
  · exact List.prefix_append _ _

@[simp] theorem kernelSize_add (s : ItemSet) (item : Item) :
    (s.add item).kernelSize = s.kernelSize := by
  unfold add
  split <;> rfl

def addAll (s : ItemSet) (items : List Item) : ItemSet := items.foldl add s

@[simp] theorem mem_items_addAll {s : ItemSet} {items : List Item} {x : Item} :
    x ∈ (s.addAll items).items ↔ x ∈ s.items ∨ x ∈ items := by
  induction items generalizing s with
  | nil => exact ⟨Or.inl, fun h => h.elim id fun hn => absurd hn List.not_mem_nil⟩
  | cons item rest ih =>
    have step : s.addAll (item :: rest) = (s.add item).addAll rest := rfl
    rw [step, ih, mem_items_add, List.mem_cons, or_assoc]

theorem items_prefix_addAll (s : ItemSet) (items : List Item) :
    s.items <+: (s.addAll items).items := by
  induction items generalizing s with
  | nil => exact List.prefix_rfl
  | cons item rest ih => exact (items_prefix_add s item).trans (ih (s.add item))

@[simp] theorem kernelSize_addAll (s : ItemSet) (items : List Item) :
    (s.addAll items).kernelSize = s.kernelSize := by
  induction items generalizing s with
  | nil => rfl
  | cons item rest ih => exact (ih (s.add item)).trans (kernelSize_add s item)

/-- The set of some items, in the order of their first occurrence.  It has no
kernel until it is closed. -/
def ofList (items : List Item) : ItemSet := empty.addAll items

@[simp] theorem mem_items_ofList {items : List Item} {x : Item} :
    x ∈ (ofList items).items ↔ x ∈ items := by
  rw [ofList, mem_items_addAll]
  exact ⟨fun h => h.elim (fun hn => absurd hn List.not_mem_nil) id, Or.inr⟩

def size (s : ItemSet) : Nat := s.items.length

def contains (s : ItemSet) (item : Item) : Bool := s.items.contains item

/-- Where an item stands. -/
def position? (s : ItemSet) (item : Item) : Option Nat := s.items.findIdx? fun x => x == item

def isKernel (s : ItemSet) (position : Nat) : Bool := position < s.kernelSize

def kernel (s : ItemSet) : List Item := s.items.take s.kernelSize

/-- The items with this symbol right before the dot, with their positions. -/
def withPrevious (g : Grammar) (s : ItemSet) (x : SymbolId) : List (Nat × Item) :=
  (s.items.zipIdx.filter fun entry => entry.1.previous? g == some x).map fun entry =>
    (entry.2, entry.1)

/-! ## Closure -/

/-- What an item calls for: the rules of the nonterminal behind its dot, with the
dot in front. -/
def introduced (g : Grammar) (item : Item) : List Item :=
  match item.next? g with
  | some x => if g.isNonterminal x then (g.rulesFor x).map fun r => ⟨r, 0⟩ else []
  | none => []

/-- Visits the items from a position on and adds what they call for at the end,
where it will be visited too. -/
def expand (g : Grammar) : Nat → Nat → ItemSet → ItemSet
  | 0, _, s => s
  | bound + 1, position, s =>
      match s.items[position]? with
      | some item => expand g bound (position + 1) (s.addAll (introduced g item))
      | none => s

/-- The closure, with everything that was there before as its kernel.  Each rule
is added at most once, so there are no more visits than items and rules. -/
def close (g : Grammar) (s : ItemSet) : ItemSet :=
  expand g (s.size + g.rules.length) 0 { s with kernelSize := s.size }

/-! ## Identity -/

/-- The two sets hold the same items. -/
def same (s t : ItemSet) : Bool := s.size == t.size && s.items.all t.contains

/-- Comparing the sizes and one inclusion is enough, because neither set repeats
an item. -/
theorem same_iff {s t : ItemSet} : s.same t = true ↔ ∀ item, item ∈ s.items ↔ item ∈ t.items := by
  simp only [same, size, contains, Bool.and_eq_true, beq_iff_eq, List.all_eq_true,
    List.contains_iff_mem]
  constructor
  · rintro ⟨hlen, hsub⟩ item
    refine ⟨hsub item, fun ht => Decidable.byContradiction fun hs => ?_⟩
    have hmore : (item :: s.items).length ≤ t.items.length :=
      List.Nodup.length_le_of_subset (List.nodup_cons.mpr ⟨hs, s.nodup⟩)
        (List.cons_subset.mpr ⟨ht, hsub⟩)
    rw [List.length_cons] at hmore
    omega
  · intro h
    have hperm : s.items.Perm t.items :=
      (List.perm_ext_iff_of_nodup s.nodup t.nodup).mpr h
    exact ⟨hperm.length_eq, fun item hi => (h item).mp hi⟩

/-- Order of items by rule and then by dot. -/
def itemLe (a b : Item) : Bool :=
  a.rule.index < b.rule.index || (a.rule.index == b.rule.index && a.dot ≤ b.dot)

theorem itemLe_iff {a b : Item} : itemLe a b = true ↔
    a.rule.index < b.rule.index ∨ a.rule.index = b.rule.index ∧ a.dot ≤ b.dot := by
  simp only [itemLe, Bool.or_eq_true, Bool.and_eq_true, decide_eq_true_eq, beq_iff_eq]

theorem itemLe_trans (a b c : Item) (hab : itemLe a b = true) (hbc : itemLe b c = true) :
    itemLe a c = true := by
  rw [itemLe_iff] at *
  omega

theorem itemLe_total (a b : Item) : (itemLe a b || itemLe b a) = true := by
  rw [Bool.or_eq_true, itemLe_iff, itemLe_iff]
  omega

theorem itemLe_antisymm {a b : Item} (hab : itemLe a b = true) (hba : itemLe b a = true) :
    a = b := by
  rw [itemLe_iff] at *
  have hrule : a.rule = b.rule := Handle.ext (by omega)
  have hdot : a.dot = b.dot := by omega
  cases a
  cases b
  cases hrule
  cases hdot
  rfl

/-- The items in ascending order. -/
def key (s : ItemSet) : List Item := s.items.mergeSort itemLe

/-- Sets have the same key exactly when they hold the same items: items that are in ascending
order have no other order to be in. -/
theorem key_eq_iff {s t : ItemSet} :
    s.key = t.key ↔ ∀ item, item ∈ s.items ↔ item ∈ t.items := by
  have hs := List.mergeSort_perm s.items itemLe
  have ht := List.mergeSort_perm t.items itemLe
  constructor
  · intro h item
    rw [← hs.mem_iff, ← ht.mem_iff]
    exact iff_of_eq (congrArg (item ∈ ·) h)
  · intro h
    have hperm : s.items.Perm t.items := (List.perm_ext_iff_of_nodup s.nodup t.nodup).mpr h
    exact (hs.trans (hperm.trans ht.symm)).eq_of_pairwise (fun _ _ _ _ => itemLe_antisymm)
      (List.pairwise_mergeSort itemLe_trans itemLe_total _)
      (List.pairwise_mergeSort itemLe_trans itemLe_total _)

/-! ## Written form -/

/-- One line for each item; a plus marks those outside the kernel. -/
def render (g : Grammar) (s : ItemSet) : String :=
  String.join <| s.items.zipIdx.map fun entry =>
    (if s.isKernel entry.2 then " " else "+") ++ " " ++ entry.1.render g ++ "\n"

end ItemSet

/-- States are known by their item sets, no two of which are the same in one
automaton. -/
abbrev StateId := Handle ItemSet

/-- A place in an automaton where an item is found: a state and a position among
its items. -/
structure Site where
  state : StateId
  position : Nat
deriving DecidableEq

end ShiftReduce
