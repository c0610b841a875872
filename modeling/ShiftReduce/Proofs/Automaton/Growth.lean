/-
How an automaton grows.

States are only ever added, and only with items that no state has yet.  `Numbered`
is what that keeps: states carry the number of their place, and no two have the
same items.  An automaton is `Proper` if besides all items belong to the grammar.
From this follows the bound on the number of states, which the construction uses to
limit its visits: different states are different subsets of the items of the
grammar.
-/
import ShiftReduce.Automaton.Construction
import ShiftReduce.Proofs.Item.Closure
import ShiftReduce.Proofs.Grammar.WellFormed
import Mathlib.Data.Finset.Powerset

namespace ShiftReduce
namespace Automaton

/-- The states of the one are those of the other, with the same items at the same
places, and perhaps more. -/
def Extends (b a : Automaton) : Prop :=
  ∀ (n : Nat) (s : State), a.states[n]? = some s →
    ∃ s' : State, b.states[n]? = some s' ∧ s'.id = s.id ∧ s'.itemSet = s.itemSet

theorem Extends.refl (a : Automaton) : a.Extends a := fun _ s h => ⟨s, h, rfl, rfl⟩

theorem Extends.trans {a b c : Automaton} (hc : c.Extends b) (hb : b.Extends a) : c.Extends a := by
  intro n s h
  obtain ⟨s₁, h₁, hid₁, hset₁⟩ := hb n s h
  obtain ⟨s₂, h₂, hid₂, hset₂⟩ := hc n s₁ h₁
  exact ⟨s₂, h₂, hid₂.trans hid₁, hset₂.trans hset₁⟩

theorem Extends.of_append {a : Automaton} (fresh : List State) :
    Extends ⟨a.states ++ fresh⟩ a := by
  intro n s h
  refine ⟨s, ?_, rfl, rfl⟩
  rw [List.getElem?_append_left (List.getElem?_eq_some_iff.mp h).1]
  exact h

theorem Extends.size_le {a b : Automaton} (h : b.Extends a) : a.size ≤ b.size := by
  refine Nat.le_of_not_lt fun hlt => ?_
  obtain ⟨s, hs, _⟩ := h b.size _ (List.getElem?_eq_getElem hlt)
  exact absurd (List.getElem?_eq_some_iff.mp hs).1 (Nat.lt_irrefl _)

/-- Where no state was added, the items are the same in both directions. -/
theorem Extends.symm_of_size_eq {a b : Automaton} (h : b.Extends a) (hsize : b.size = a.size) :
    a.Extends b := by
  intro n s' hs'
  have hn : n < a.states.length := by
    have hlt := (List.getElem?_eq_some_iff.mp hs').1
    have : b.states.length = a.states.length := hsize
    omega
  obtain ⟨s'', hs'', hid, hset⟩ := h n _ (List.getElem?_eq_getElem hn)
  rw [hs'] at hs''
  cases hs''
  exact ⟨_, List.getElem?_eq_getElem hn, hid.symm, hset.symm⟩

/-- The state with this number has the items of a set. -/
def Holds (a : Automaton) (id : StateId) (set : ItemSet) : Prop :=
  ∃ s : State, a.states[id.index]? = some s ∧ ∀ item, item ∈ s.itemSet.items ↔ item ∈ set.items

theorem Holds.of_extends {a b : Automaton} {id : StateId} {set : ItemSet} (h : a.Holds id set)
    (hb : b.Extends a) : b.Holds id set := by
  obtain ⟨s, hs, hitems⟩ := h
  obtain ⟨s', hs', _, hset⟩ := hb _ s hs
  exact ⟨s', hs', fun item => by rw [hset]; exact hitems item⟩

theorem addState_cases (a : Automaton) (set : ItemSet) :
    (∃ s ∈ a.states, s.itemSet.same set = true ∧ a.addState set = (s.id, a)) ∨
    ((∀ s ∈ a.states, s.itemSet.same set = false) ∧
      a.addState set = (Handle.ofNat a.size, ⟨a.states ++ [.make (Handle.ofNat a.size) set]⟩)) := by
  unfold addState stateWith?
  cases h : a.states.find? fun s => s.itemSet.same set with
  | some s =>
    have hsame := List.find?_some h
    exact Or.inl ⟨s, List.mem_of_find?_eq_some h, hsame, rfl⟩
  | none =>
    refine Or.inr ⟨fun s hs => ?_, rfl⟩
    exact Bool.eq_false_iff.mpr (List.find?_eq_none.mp h s hs)

/-- Places as numbers, and no items twice. -/
structure Numbered (a : Automaton) : Prop where
  id_eq : ∀ (n : Nat) (s : State), a.states[n]? = some s → s.id = Handle.ofNat n
  distinct : a.states.Pairwise fun s t => s.itemSet.same t.itemSet = false

theorem Numbered.empty : Numbered .empty :=
  { id_eq := fun n s h => absurd h (by simp [Automaton.empty])
    distinct := List.Pairwise.nil }

/-- As long as no state is added, what transitions there are makes no difference. -/
theorem Numbered.of_extends {a b : Automaton} (p : Numbered a) (h : b.Extends a)
    (hsize : b.size = a.size) : Numbered b := by
  have same := h.symm_of_size_eq hsize
  refine { id_eq := fun n s' hs' => ?_, distinct := ?_ }
  · obtain ⟨s, hs, hid, _⟩ := same n s' hs'
    rw [← hid]
    exact p.id_eq n s hs
  · refine List.pairwise_iff_getElem.mpr fun m n hm hn hlt => ?_
    obtain ⟨s, hs, _, hset⟩ := same m _ (List.getElem?_eq_getElem hm)
    obtain ⟨t, ht, _, htset⟩ := same n _ (List.getElem?_eq_getElem hn)
    obtain ⟨hm', rfl⟩ := List.getElem?_eq_some_iff.mp hs
    obtain ⟨hn', rfl⟩ := List.getElem?_eq_some_iff.mp ht
    rw [← hset, ← htset]
    exact List.pairwise_iff_getElem.mp p.distinct m n hm' hn' hlt

theorem Numbered.addState {a : Automaton} (p : Numbered a) (set : ItemSet) :
    Numbered (a.addState set).2 := by
  rcases addState_cases a set with ⟨s, _, _, e⟩ | ⟨hnone, e⟩
  · rw [e]
    exact p
  · rw [e]
    refine { id_eq := fun n s h => ?_, distinct := ?_ }
    · rcases Nat.lt_or_ge n a.states.length with hlt | hge
      · rw [List.getElem?_append_left hlt] at h
        exact p.id_eq n s h
      · rw [List.getElem?_append_right hge, List.getElem?_singleton] at h
        split at h
        · rename_i hn
          cases h
          have hn : n = a.size := by
            have : n - a.states.length = 0 := hn
            have : a.size = a.states.length := rfl
            omega
          rw [hn]
          rfl
        · cases h
    · refine List.pairwise_append.mpr ⟨p.distinct, List.pairwise_singleton _ _, ?_⟩
      intro s hs t ht
      rw [List.mem_singleton.mp ht]
      exact hnone s hs

/-- While every state has a handle of its own, the number of a state is its place. -/
theorem Numbered.index_id {a : Automaton} (p : Numbered a) (hsize : a.size ≤ handleSpan) {n : Nat}
    {s : State} (h : a.states[n]? = some s) : s.id.index = n := by
  have hlt := (List.getElem?_eq_some_iff.mp h).1
  rw [p.id_eq n s h]
  exact Handle.index_ofNat_of_lt (Nat.lt_of_lt_of_le hlt hsize)

/-- States with the same items are one. -/
theorem Numbered.eq_of_items {a : Automaton} (p : Numbered a) {m n : Nat} {s t : State}
    (hs : a.states[m]? = some s) (ht : a.states[n]? = some t)
    (h : ∀ item, item ∈ s.itemSet.items ↔ item ∈ t.itemSet.items) : m = n := by
  obtain ⟨hm, rfl⟩ := List.getElem?_eq_some_iff.mp hs
  obtain ⟨hn, rfl⟩ := List.getElem?_eq_some_iff.mp ht
  have hdistinct := List.pairwise_iff_getElem.mp p.distinct
  rcases Nat.lt_trichotomy m n with hlt | heq | hgt
  · have hno := hdistinct m n hm hn hlt
    rw [ItemSet.same_iff.mpr h] at hno
    cases hno
  · exact heq
  · have hno := hdistinct n m hn hm hgt
    rw [ItemSet.same_iff.mpr fun item => (h item).symm] at hno
    cases hno

/-- Places as numbers, no items twice, all of them of the grammar. -/
structure Proper (g : Grammar) (a : Automaton) : Prop where
  id_eq : ∀ (n : Nat) (s : State), a.states[n]? = some s → s.id = Handle.ofNat n
  distinct : a.states.Pairwise fun s t => s.itemSet.same t.itemSet = false
  belongs : ∀ s ∈ a.states, ∀ item ∈ s.itemSet.items, item.BelongsTo g

theorem Proper.numbered {g : Grammar} {a : Automaton} (p : Proper g a) : Numbered a :=
  ⟨p.id_eq, p.distinct⟩

theorem Numbered.proper {g : Grammar} {a : Automaton} (p : Numbered a)
    (h : ∀ s ∈ a.states, ∀ item ∈ s.itemSet.items, item.BelongsTo g) : Proper g a :=
  ⟨p.id_eq, p.distinct, h⟩

theorem Proper.empty (g : Grammar) : Proper g .empty :=
  Numbered.empty.proper fun _ h => absurd h List.not_mem_nil

theorem Proper.of_extends {g : Grammar} {a b : Automaton} (p : Proper g a) (h : b.Extends a)
    (hsize : b.size = a.size) : Proper g b := by
  refine (p.numbered.of_extends h hsize).proper fun s' hs' => ?_
  obtain ⟨n, hn⟩ := List.mem_iff_getElem?.mp hs'
  obtain ⟨s, hs, _, hset⟩ := h.symm_of_size_eq hsize n _ hn
  rw [← hset]
  exact p.belongs s (List.mem_of_getElem? hs)

theorem Proper.addState {g : Grammar} {a : Automaton} {set : ItemSet} (p : Proper g a)
    (hset : ∀ item ∈ set.items, item.BelongsTo g) : Proper g (a.addState set).2 := by
  refine (p.numbered.addState set).proper ?_
  rcases addState_cases a set with ⟨s, _, _, e⟩ | ⟨_, e⟩
  · rw [e]
    exact p.belongs
  · rw [e]
    intro s hs
    rcases List.mem_append.mp hs with hs | hs
    · exact p.belongs s hs
    · rw [List.mem_singleton.mp hs]
      exact hset

/-- What comes of adding states for named item sets: the states before, then fresh
ones without transitions, each of which some name leads to; and each name leads to
a state with the items it was given. -/
structure Added (successors : List (SymbolId × ItemSet)) (a : Automaton)
    (targets : List (SymbolId × StateId)) (b : Automaton) : Prop where
  states_eq : ∃ fresh : List State, b.states = a.states ++ fresh ∧ ∀ s ∈ fresh, s.transitions = []
  holds : List.Forall₂ (fun e t => t.1 = e.1 ∧ b.Holds t.2 e.2) successors targets
  named : ∀ n, a.size ≤ n → n < b.size → ∃ t ∈ targets, t.2.index = n

theorem Added.extends {successors : List (SymbolId × ItemSet)} {a b : Automaton}
    {targets : List (SymbolId × StateId)} (h : Added successors a targets b) : b.Extends a := by
  obtain ⟨fresh, e, _⟩ := h.states_eq
  have := Extends.of_append (a := a) fresh
  rw [← e] at this
  exact this

theorem Added.exists_of_mem {successors : List (SymbolId × ItemSet)} {a b : Automaton}
    {targets : List (SymbolId × StateId)} (h : Added successors a targets b)
    {t : SymbolId × StateId} (ht : t ∈ targets) :
    ∃ e ∈ successors, t.1 = e.1 ∧ b.Holds t.2 e.2 := by
  obtain ⟨n, hn, rfl⟩ := List.mem_iff_getElem.mp ht
  have hlen := h.holds.length_eq
  have hn' : n < successors.length := by omega
  exact ⟨_, List.getElem_mem hn', h.holds.get hn' hn⟩

theorem extends_addState (a : Automaton) (set : ItemSet) : (a.addState set).2.Extends a := by
  rcases addState_cases a set with ⟨s, _, _, e⟩ | ⟨_, e⟩
  · rw [e]
    exact Extends.refl a
  · rw [e]
    exact Extends.of_append _

theorem extends_addStates (successors : List (SymbolId × ItemSet)) (a : Automaton) :
    (addStates successors a).2.Extends a := by
  induction successors generalizing a with
  | nil => exact Extends.refl a
  | cons e rest ih => exact (ih _).trans (extends_addState a e.2)

theorem map_fst_addStates (successors : List (SymbolId × ItemSet)) (a : Automaton) :
    (addStates successors a).1.map Prod.fst = successors.map Prod.fst := by
  induction successors generalizing a with
  | nil => rfl
  | cons e rest ih => exact congrArg (e.1 :: ·) (ih _)

theorem Proper.added_addState {g : Grammar} {a : Automaton} (p : Proper g a) (x : SymbolId)
    (set : ItemSet) (hsize : (a.addState set).2.size ≤ handleSpan) :
    Added [(x, set)] a [(x, (a.addState set).1)] (a.addState set).2 := by
  rcases addState_cases a set with ⟨s, hs, hsame, e⟩ | ⟨_, e⟩
  · rw [e] at hsize ⊢
    obtain ⟨n, hn, rfl⟩ := List.mem_iff_getElem.mp hs
    have hget := List.getElem?_eq_getElem hn
    have hindex : (a.states[n].id).index = n := p.numbered.index_id hsize hget
    refine
      { states_eq := ⟨[], (List.append_nil _).symm, fun _ h => absurd h List.not_mem_nil⟩
        holds := .cons ⟨rfl, a.states[n], ?_, ItemSet.same_iff.mp hsame⟩ .nil
        named := fun m h₁ h₂ => absurd h₁ (Nat.not_le_of_lt h₂) }
    show a.states[a.states[n].id.index]? = some a.states[n]
    rw [hindex]
    exact hget
  · rw [e] at hsize ⊢
    have hlen : a.size < handleSpan := by
      have : (a.states ++ [State.make (Handle.ofNat a.size) set]).length ≤ handleSpan := hsize
      rw [List.length_append, List.length_singleton] at this
      exact this
    have hindex : (Handle.ofNat a.size : StateId).index = a.size := Handle.index_ofNat_of_lt hlen
    refine
      { states_eq := ⟨[.make (Handle.ofNat a.size) set], rfl, fun s hs => ?_⟩
        holds := .cons ⟨rfl, .make (Handle.ofNat a.size) set, ?_, fun item => Iff.rfl⟩ .nil
        named := fun m h₁ h₂ => ⟨_, List.mem_singleton_self _, ?_⟩ }
    · rw [List.mem_singleton.mp hs]
      rfl
    · show (a.states ++ [State.make (Handle.ofNat a.size) set])[
        (Handle.ofNat a.size : StateId).index]? = _
      rw [hindex]
      exact List.getElem?_concat_length
    · have h₂ : m < (a.states ++ [State.make (Handle.ofNat a.size) set]).length := h₂
      rw [List.length_append, List.length_singleton] at h₂
      show (Handle.ofNat a.size : StateId).index = m
      rw [hindex]
      have : a.size = a.states.length := rfl
      omega

theorem Added.cons {e : SymbolId × ItemSet} {rest : List (SymbolId × ItemSet)}
    {a b c : Automaton} {t : SymbolId × StateId} {targets : List (SymbolId × StateId)}
    (h : Added [e] a [t] b) (hrest : Added rest b targets c) :
    Added (e :: rest) a (t :: targets) c := by
  obtain ⟨fresh, hb, hfresh⟩ := h.states_eq
  obtain ⟨more, hc, hmore⟩ := hrest.states_eq
  refine
    { states_eq := ⟨fresh ++ more, by rw [hc, hb, List.append_assoc], fun s hs => ?_⟩
      holds := ?_
      named := fun n h₁ h₂ => ?_ }
  · rcases List.mem_append.mp hs with hs | hs
    · exact hfresh s hs
    · exact hmore s hs
  · cases h.holds with
    | cons he _ => exact .cons ⟨he.1, he.2.of_extends hrest.extends⟩ hrest.holds
  · rcases Nat.lt_or_ge n b.size with hlt | hge
    · obtain ⟨u, hu, hn⟩ := h.named n h₁ hlt
      rw [List.mem_singleton.mp hu] at hn
      exact ⟨t, List.mem_cons_self, hn⟩
    · obtain ⟨u, hu, hn⟩ := hrest.named n hge h₂
      exact ⟨u, List.mem_cons_of_mem t hu, hn⟩

theorem Proper.addStates {g : Grammar} {successors : List (SymbolId × ItemSet)} {a : Automaton}
    (p : Proper g a) (hsets : ∀ e ∈ successors, ∀ item ∈ e.2.items, item.BelongsTo g) :
    Proper g (addStates successors a).2 := by
  induction successors generalizing a with
  | nil => exact p
  | cons e rest ih =>
    exact ih (p.addState (hsets e List.mem_cons_self)) fun e' he =>
      hsets e' (List.mem_cons_of_mem e he)

theorem Proper.added_addStates {g : Grammar} {successors : List (SymbolId × ItemSet)}
    {a : Automaton} (p : Proper g a)
    (hsets : ∀ e ∈ successors, ∀ item ∈ e.2.items, item.BelongsTo g)
    (hsize : (Automaton.addStates successors a).2.size ≤ handleSpan) :
    Added successors a (Automaton.addStates successors a).1
      (Automaton.addStates successors a).2 := by
  induction successors generalizing a with
  | nil =>
    exact
      { states_eq := ⟨[], (List.append_nil _).symm, fun _ h => absurd h List.not_mem_nil⟩
        holds := .nil
        named := fun n h₁ h₂ => absurd h₁ (Nat.not_le_of_lt h₂) }
  | cons e rest ih =>
    have hone : (a.addState e.2).2.size ≤ handleSpan :=
      Nat.le_trans (extends_addStates rest _).size_le hsize
    exact (p.added_addState e.1 e.2 hone).cons
      (ih (p.addState (hsets e List.mem_cons_self))
        (fun e' he => hsets e' (List.mem_cons_of_mem e he)) hsize)

/-! ## How many states there can be -/

/-- Different states are different sets of items of the grammar. -/
theorem Proper.size_le {g : Grammar} {a : Automaton} (p : Proper g a) :
    a.size ≤ Nat.pow 2 g.items.length := by
  let sets : List (Finset Item) := a.states.map fun s => s.itemSet.items.toFinset
  have hnodup : sets.Nodup := by
    refine List.pairwise_map.mpr (p.distinct.imp fun {s t} hne e => ?_)
    rw [Bool.eq_false_iff] at hne
    refine hne (ItemSet.same_iff.mpr fun item => ?_)
    rw [← List.mem_toFinset, e, List.mem_toFinset]
  have hsub : sets.toFinset ⊆ g.items.toFinset.powerset := by
    intro items hitems
    obtain ⟨s, hs, rfl⟩ := List.mem_map.mp (List.mem_toFinset.mp hitems)
    refine Finset.mem_powerset.mpr fun item hitem => ?_
    exact List.mem_toFinset.mpr (Grammar.mem_items_of_belongsTo
      (p.belongs s hs item (List.mem_toFinset.mp hitem)))
  calc a.size
      = sets.toFinset.card := by
        rw [List.toFinset_card_of_nodup hnodup, List.length_map]
        rfl
    _ ≤ g.items.toFinset.powerset.card := Finset.card_le_card hsub
    _ = Nat.pow 2 g.items.toFinset.card := Finset.card_powerset _
    _ ≤ Nat.pow 2 g.items.length :=
        Nat.pow_le_pow_right (by decide) (List.toFinset_card_le _)

end Automaton
end ShiftReduce
