/-
The automaton of a grammar is the canonical collection.

The construction visits states while it adds them, so its invariant `Walked`
speaks of two kinds of states.  Those before the present one are complete, and
what completes them are states that may not have been visited yet; those from the
present one on have no transitions at all.  `completes_visit` says what one visit
does, and `Walked.visit` moves the invariant on by one state.  Nothing is missed in
the end because there are at most as many states as visits, which is
`Proper.size_le`.
-/
import ShiftReduce.Proofs.Automaton.Canonical

namespace ShiftReduce

theorem nodup_eraseDups {α : Type} [BEq α] [LawfulBEq α] (xs : List α) : xs.eraseDups.Nodup := by
  induction h : xs.length using Nat.strongRecOn generalizing xs with
  | ind n ih =>
    cases xs with
    | nil => exact List.nodup_nil
    | cons x rest =>
      rw [List.eraseDups_cons, List.nodup_cons]
      have hlt : (rest.filter fun y => !y == x).length < n := by
        have := List.length_filter_le (fun y => !y == x) rest
        rw [List.length_cons] at h
        omega
      refine ⟨fun hx => ?_, ih _ hlt _ rfl⟩
      have hx := (List.mem_filter.mp (List.mem_eraseDups.mp hx)).2
      rw [beq_self_eq_true] at hx
      cases hx

namespace Automaton

/-! ## Successors -/

/-- The successor over a symbol is the closure of the items whose dots moved over
it. -/
theorem mem_successor {g : Grammar} {items : List Item} {x : SymbolId} {item : Item} :
    item ∈ (successor g items x).items ↔ ItemSet.Closure g (movedOver g items x) item := by
  have hkernel : ∀ k, k ∈ (ItemSet.ofList <| (items.filter fun item =>
      item.next? g == some x).filterMap (Item.advance? g)).items ↔ k ∈ movedOver g items x := by
    intro k
    rw [ItemSet.mem_items_ofList, List.mem_filterMap, mem_movedOver]
    constructor
    · rintro ⟨i, hi, hadvance⟩
      obtain ⟨hi, hx⟩ := List.mem_filter.mp hi
      have hx := beq_iff_eq.mp hx
      rw [Item.advance?_of_next? hx] at hadvance
      cases hadvance
      exact ⟨i, hi, hx, rfl⟩
    · rintro ⟨i, hi, hx, rfl⟩
      exact ⟨i, List.mem_filter.mpr ⟨hi, beq_iff_eq.mpr hx⟩, Item.advance?_of_next? hx⟩
  rw [successor, ItemSet.mem_close]
  exact ItemSet.Closure.congr hkernel

theorem mem_nextSymbols {g : Grammar} {items : List Item} {x : SymbolId} :
    x ∈ nextSymbols g items ↔ ∃ item ∈ items, item.next? g = some x := by
  rw [nextSymbols, List.mem_eraseDups, List.mem_filterMap]

theorem belongsTo_of_mem_successor {g : Grammar} {items : List Item}
    (hitems : ∀ i ∈ items, i.BelongsTo g) {x : SymbolId} :
    ∀ item ∈ (successor g items x).items, item.BelongsTo g := fun _ h =>
  (mem_successor.mp h).belongsTo fun _ hk => belongsTo_of_mem_movedOver hk hitems

/-! ## The transitions of an item -/

/-- Where a symbol leads, by a list of names and targets. -/
def targetOf (targets : List (SymbolId × StateId)) (x : SymbolId) : StateId :=
  (targets.lookup x).getD (Handle.ofNat 0)

theorem lookup_eq_some_of_mem {targets : List (SymbolId × StateId)} {x : SymbolId} {id : StateId}
    (hnodup : (targets.map Prod.fst).Nodup) (h : (x, id) ∈ targets) :
    targets.lookup x = some id := by
  induction targets with
  | nil => exact absurd h List.not_mem_nil
  | cons t rest ih =>
    obtain ⟨y, target⟩ := t
    obtain ⟨hhead, hrest⟩ := List.nodup_cons.mp hnodup
    rcases List.mem_cons.mp h with e | hmem
    · rw [← e, List.lookup_cons_self]
    · have hne : (x == y) = false := by
        refine beq_eq_false_iff_ne.mpr fun e => hhead ?_
        rw [← e]
        exact List.mem_map.mpr ⟨_, hmem, rfl⟩
      rw [List.lookup_cons, hne]
      exact ih hrest hmem

theorem mem_outgoing_of_next? {g : Grammar} (wf : g.WellFormed)
    {targets : List (SymbolId × StateId)} {origin : Site} {item : Item} {x : SymbolId}
    (hx : item.next? g = some x) (htarget : targets.lookup x = some (targetOf targets x))
    {t : Transition} :
    t ∈ outgoing g targets origin item ↔
      t.origin = origin ∧ Prescribes g (targetOf targets) item t.symbol t.move := by
  obtain ⟨site, symbol, move⟩ := t
  have hkind : g.isTerminal x = !g.isNonterminal x :=
    Grammar.isTerminal_eq_not_isNonterminal (wf.mem_rightOf (List.mem_of_getElem? hx)).1
  have hend : item.atEnd g ≠ true := by
    rw [Item.atEnd, Ne, beq_iff_eq]
    exact Nat.ne_of_lt (List.getElem?_eq_some_iff.mp hx).1
  simp only [outgoing, hx, htarget, List.mem_singleton]
  constructor
  · intro e
    cases e
    refine ⟨rfl, ?_⟩
    by_cases ht : g.isTerminal x = true
    · rw [if_pos ht]
      exact .shift hx ht
    · rw [if_neg ht]
      rw [hkind, Bool.not_eq_true', Bool.not_eq_false] at ht
      exact .goto hx ht
  · rintro ⟨rfl, h⟩
    cases h with
    | shift hy ht =>
      rw [hx] at hy
      cases hy
      rw [if_pos ht]
    | goto hy hn =>
      rw [hx] at hy
      cases hy
      rw [hkind, hn, if_neg (by decide)]
    | reduce he _ _ => exact absurd he hend
    | accept he _ => exact absurd he hend

theorem mem_outgoing_of_atEnd {g : Grammar} (wf : g.WellFormed)
    {targets : List (SymbolId × StateId)} {origin : Site} {item : Item}
    (hitem : item.BelongsTo g) (hend : item.atEnd g = true) {t : Transition} :
    t ∈ outgoing g targets origin item ↔
      t.origin = origin ∧ Prescribes g (targetOf targets) item t.symbol t.move := by
  obtain ⟨site, symbol, move⟩ := t
  have hnone : item.next? g = none := (atEnd_iff hitem).mp hend
  have hleft : item.left g = .accept ↔ item.rule.index = 0 := wf.leftOf_eq_accept hitem.1
  have hinput : ∀ x, x ∈ g.inputSymbols ↔ x ∈ g.terminals ∨ x = .endMarker := fun x => by
    rw [Grammar.inputSymbols, List.mem_append, List.mem_singleton]
  have hno : ∀ x, item.next? g ≠ some x := fun x => by
    rw [hnone]
    exact (Option.some_ne_none _).symm
  by_cases hzero : item.rule.index = 0
  · simp only [outgoing, hnone, hend, Bool.true_and, beq_iff_eq.mpr (hleft.mpr hzero), if_true,
      List.mem_singleton]
    constructor
    · intro e
      cases e
      exact ⟨rfl, .accept hend hzero⟩
    · rintro ⟨rfl, h⟩
      cases h with
      | shift hy _ => exact absurd hy (hno _)
      | goto hy _ => exact absurd hy (hno _)
      | reduce _ hne _ => exact absurd hzero hne
      | accept _ _ => rfl
  · have hne : (item.left g == .accept) = false := beq_eq_false_iff_ne.mpr (mt hleft.mp hzero)
    have hreduces : item.reduces g = true := by
      rw [Item.reduces, Bool.and_eq_true, bne_iff_ne]
      exact ⟨hzero, hend⟩
    simp only [outgoing, hnone, hend, hne, hreduces, Bool.and_false, Bool.false_eq_true, if_false,
      if_true, List.mem_map]
    constructor
    · rintro ⟨x, hx, e⟩
      cases e
      exact ⟨rfl, .reduce hend hzero ((hinput _).mp hx)⟩
    · rintro ⟨rfl, h⟩
      cases h with
      | shift hy _ => exact absurd hy (hno _)
      | goto hy _ => exact absurd hy (hno _)
      | reduce _ _ hx => exact ⟨symbol, (hinput symbol).mpr hx, rfl⟩
      | accept _ h0 => exact absurd h0 hzero

theorem mem_outgoing {g : Grammar} (wf : g.WellFormed) {targets : List (SymbolId × StateId)}
    {origin : Site} {item : Item} (hitem : item.BelongsTo g)
    (htarget : ∀ x, item.next? g = some x → targets.lookup x = some (targetOf targets x))
    {t : Transition} :
    t ∈ outgoing g targets origin item ↔
      t.origin = origin ∧ Prescribes g (targetOf targets) item t.symbol t.move := by
  cases hx : item.next? g with
  | some x => exact mem_outgoing_of_next? wf hx (htarget x hx)
  | none => exact mem_outgoing_of_atEnd wf hitem ((atEnd_iff hitem).mpr hx)

end Automaton

namespace State

theorem sameEdge_iff {t u : Transition} (ht : t.lookahead = .any) (hu : u.lookahead = .any) :
    u.sameEdge t = true ↔ u = t := by
  have edge_eq : ∀ v : Transition, v.lookahead = .any → v.edge = v := by
    rintro ⟨origin, symbol, move⟩ hv
    cases move with
    | shift target l =>
      cases hv
      rfl
    | goto target => rfl
    | reduce l =>
      cases hv
      rfl
    | accept => rfl
  rw [Transition.sameEdge, beq_iff_eq, edge_eq t ht, edge_eq u hu]

theorem addAll_of_any (ts : List Transition) (hts : ∀ t ∈ ts, t.lookahead = .any) (s : State)
    (hs : ∀ t ∈ s.transitions, t.lookahead = .any) (hnodup : s.transitions.Nodup) :
    (s.addAll ts).transitions.Nodup ∧
      ∀ t, t ∈ (s.addAll ts).transitions ↔ t ∈ s.transitions ∨ t ∈ ts := by
  induction ts generalizing s with
  | nil =>
    refine ⟨hnodup, fun t => ⟨Or.inl, fun h => ?_⟩⟩
    exact h.resolve_right List.not_mem_nil
  | cons u rest ih =>
    have hu := hts u List.mem_cons_self
    have hedge : s.hasEdge u = true ↔ u ∈ s.transitions := by
      rw [hasEdge, List.any_eq_true]
      constructor
      · rintro ⟨v, hv, he⟩
        rw [← (sameEdge_iff hu (hs v hv)).mp he]
        exact hv
      · exact fun h => ⟨u, h, (sameEdge_iff hu hu).mpr rfl⟩
    have hmem : ∀ t, t ∈ (s.add u).transitions ↔ t ∈ s.transitions ∨ t = u := by
      intro t
      rw [add]
      split
      · rename_i h
        exact ⟨Or.inl, fun ht => ht.elim (fun ht => ht) fun e => e ▸ hedge.mp h⟩
      · rw [List.mem_append, List.mem_singleton]
    have hadd : (s.add u).transitions.Nodup := by
      rw [add]
      split
      · exact hnodup
      · rename_i h
        refine List.nodup_append.mpr ⟨hnodup, List.pairwise_singleton _ _, fun v hv w hw e => ?_⟩
        rw [List.mem_singleton.mp hw] at e
        exact h (hedge.mpr (e ▸ hv))
    obtain ⟨hrest, hall⟩ := ih (fun t ht => hts t (List.mem_cons_of_mem u ht)) (s.add u)
      (fun t ht => ((hmem t).mp ht).elim (hs t) fun e => e ▸ hu) hadd
    refine ⟨hrest, fun t => (hall t).trans ?_⟩
    rw [hmem, List.mem_cons, or_assoc]

end State

namespace Automaton

/-! ## One visit -/

/-- The automaton with transitions added to the state at a position. -/
def addAt (a : Automaton) (i : Nat) (ts : List Transition) : Automaton :=
  ⟨a.states.modify i fun s => s.addAll ts⟩

theorem size_addAt (a : Automaton) (i : Nat) (ts : List Transition) :
    (a.addAt i ts).size = a.size := List.length_modify _ _ _

theorem getElem?_addAt_self {a : Automaton} {i : Nat} {s : State} (h : a.states[i]? = some s)
    (ts : List Transition) : (a.addAt i ts).states[i]? = some (s.addAll ts) := by
  rw [addAt, List.getElem?_modify, h]
  simp

theorem getElem?_addAt_of_ne (a : Automaton) {i n : Nat} (h : n ≠ i) (ts : List Transition) :
    (a.addAt i ts).states[n]? = a.states[n]? := by
  rw [addAt, List.getElem?_modify]
  simp [Ne.symm h]

theorem extends_addAt (a : Automaton) (i : Nat) (ts : List Transition) :
    (a.addAt i ts).Extends a := by
  intro n s h
  by_cases hn : n = i
  · rw [hn] at h ⊢
    exact ⟨_, getElem?_addAt_self h ts, State.id_addAll s ts, State.itemSet_addAll s ts⟩
  · exact ⟨s, (getElem?_addAt_of_ne a hn ts).trans h, rfl, rfl⟩

/-- What a visit adds to a state: what its items account for. -/
def transitionsOf (g : Grammar) (targets : List (SymbolId × StateId)) (i : Nat) (s : State) :
    List Transition :=
  s.itemSet.items.zipIdx.flatMap fun entry =>
    outgoing g targets ⟨Handle.ofNat i, entry.2⟩ entry.1

/-- The successors of a state, each with the symbol that leads there. -/
def successorsOf (g : Grammar) (s : State) : List (SymbolId × ItemSet) :=
  (nextSymbols g s.itemSet.items).map fun x => (x, successor g s.itemSet.items x)

theorem map_fst_successorsOf (g : Grammar) (s : State) :
    (successorsOf g s).map Prod.fst = nextSymbols g s.itemSet.items := by
  rw [successorsOf, List.map_map]
  exact List.map_id _

theorem visit_eq {g : Grammar} {a : Automaton} {i : Nat} {s : State} (h : a.states[i]? = some s) :
    a.visit g i = (addStates (successorsOf g s) a).2.addAt i
      (transitionsOf g (addStates (successorsOf g s) a).1 i s) := by
  unfold visit
  rw [h]
  rfl

theorem extends_visit (g : Grammar) (a : Automaton) (i : Nat) : (a.visit g i).Extends a := by
  cases h : a.states[i]? with
  | none =>
    unfold visit
    rw [h]
    exact Extends.refl a
  | some s =>
    rw [visit_eq h]
    exact (extends_addAt _ i _).trans (extends_addStates _ a)

theorem extends_populateFrom (g : Grammar) (bound i : Nat) (a : Automaton) :
    (populateFrom g bound i a).Extends a := by
  induction bound generalizing i a with
  | zero => exact Extends.refl a
  | succ bound ih =>
    rw [populateFrom]
    split
    · exact (ih (i + 1) _).trans (extends_visit g a i)
    · exact Extends.refl a

/-- A state without transitions that is given those its items account for is
complete, once the successors of the state are there. -/
theorem completeBy_addAll {g : Grammar} (wf : g.WellFormed) {a b : Automaton} {i : Nat} {s : State}
    {targets : List (SymbolId × StateId)} (hadded : Added (successorsOf g s) a targets b)
    (hkeys : targets.map Prod.fst = nextSymbols g s.itemSet.items) (hid : s.id = Handle.ofNat i)
    (hbelongs : ∀ item ∈ s.itemSet.items, item.BelongsTo g) (hnone : s.transitions = []) :
    CompleteBy g b (targetOf targets) (s.addAll (transitionsOf g targets i s)) := by
  have hnodup : (targets.map Prod.fst).Nodup := hkeys ▸ nodup_eraseDups _
  have hlookup : ∀ x ∈ nextSymbols g s.itemSet.items,
      (x, targetOf targets x) ∈ targets ∧ targets.lookup x = some (targetOf targets x) := by
    intro x hx
    rw [← hkeys] at hx
    obtain ⟨⟨y, target⟩, hmem, rfl⟩ := List.mem_map.mp hx
    have h := lookup_eq_some_of_mem hnodup hmem
    have e : targetOf targets y = target := by
      rw [targetOf, h]
      rfl
    exact ⟨e ▸ hmem, e ▸ h⟩
  have hmem : ∀ t, t ∈ transitionsOf g targets i s ↔
      ∃ item : Item, t.origin.state = s.id ∧ s.itemSet.items[t.origin.position]? = some item ∧
        Prescribes g (targetOf targets) item t.symbol t.move := by
    intro t
    have hout : ∀ item ∈ s.itemSet.items, ∀ origin : Site,
        t ∈ outgoing g targets origin item ↔
          t.origin = origin ∧ Prescribes g (targetOf targets) item t.symbol t.move := by
      intro item hitem origin
      refine mem_outgoing wf (hbelongs item hitem) fun x hx => ?_
      exact (hlookup x (mem_nextSymbols.mpr ⟨item, hitem, hx⟩)).2
    rw [transitionsOf, List.mem_flatMap]
    constructor
    · rintro ⟨⟨item, position⟩, hentry, ht⟩
      have hposition := List.mem_zipIdx_iff_getElem?.mp hentry
      obtain ⟨horigin, hprescribes⟩ := (hout item (List.mem_of_getElem? hposition) _).mp ht
      rw [horigin, hid]
      exact ⟨item, rfl, hposition, hprescribes⟩
    · rintro ⟨item, hstate, hposition, hprescribes⟩
      refine ⟨(item, t.origin.position), List.mem_zipIdx_iff_getElem?.mpr hposition, ?_⟩
      refine (hout item (List.mem_of_getElem? hposition) _).mpr ⟨?_, hprescribes⟩
      rw [← hid, ← hstate]
  have hany : ∀ t ∈ transitionsOf g targets i s, t.lookahead = .any := by
    intro t ht
    obtain ⟨item, _, _, hprescribes⟩ := (hmem t).mp ht
    exact hprescribes.lookahead_eq
  obtain ⟨hdistinct, hall⟩ := State.addAll_of_any (transitionsOf g targets i s) hany s
    (by rw [hnone]; exact fun t ht => absurd ht List.not_mem_nil)
    (by rw [hnone]; exact List.nodup_nil)
  refine { holds := fun x hx => ?_, nodup := hdistinct, mem_iff := fun t => ?_ }
  · rw [State.itemSet_addAll] at hx ⊢
    have hx' := mem_nextSymbols.mpr hx
    obtain ⟨e, he, hfst, s', hs', hitems⟩ := hadded.exists_of_mem (hlookup x hx').1
    obtain ⟨y, _, rfl⟩ := List.mem_map.mp he
    cases hfst
    exact ⟨s', hs', fun item => (hitems item).trans mem_successor⟩
  · rw [hall, hnone, State.id_addAll, State.itemSet_addAll]
    exact ⟨fun h => (hmem t).mp (h.resolve_left List.not_mem_nil), fun h => Or.inr ((hmem t).mpr h)⟩

/-! ## The walk -/

/-- How far the construction has come: the states before a position are complete,
and those from there on have no transitions yet. -/
structure Walked (g : Grammar) (position : Nat) (a : Automaton) : Prop where
  proper : Proper g a
  closed : ∀ s ∈ a.states, ItemSet.Closed g s.itemSet.items
  visited : ∀ (n : Nat) (s : State), n < position → a.states[n]? = some s → Complete g a s
  waiting : ∀ (n : Nat) (s : State), position ≤ n → a.states[n]? = some s → s.transitions = []
  reached : ∀ n, n < a.size → ∃ xs : List SymbolId, a.Path 0 xs n

theorem Added.exists_successor {g : Grammar} {s : State} {a b : Automaton}
    {targets : List (SymbolId × StateId)} (h : Added (successorsOf g s) a targets b) {n : Nat}
    (hge : a.size ≤ n) (hlt : n < b.size) :
    ∃ x ∈ nextSymbols g s.itemSet.items, ∃ id : StateId, (x, id) ∈ targets ∧ id.index = n ∧
      b.Holds id (successor g s.itemSet.items x) := by
  obtain ⟨⟨x, id⟩, hmem, hindex⟩ := h.named n hge hlt
  obtain ⟨e, he, hfst, hholds⟩ := h.exists_of_mem hmem
  obtain ⟨y, hy, rfl⟩ := List.mem_map.mp he
  cases hfst
  exact ⟨_, hy, id, hmem, hindex, hholds⟩

/-- An automaton is another one with the state at a position completed and the
successors of that state added where they were missing. -/
structure Completes (g : Grammar) (i : Nat) (a b : Automaton) : Prop where
  proper : Proper g b
  grown : b.Extends a
  here : ∃ s, b.states[i]? = some s ∧ Complete g b s
  kept : ∀ n, n < a.size → n ≠ i → b.states[n]? = a.states[n]?
  fresh : ∀ (n : Nat) (s : State), a.size ≤ n → b.states[n]? = some s →
    s.transitions = [] ∧ ItemSet.Closed g s.itemSet.items ∧ ∃ x, b.Edge i x n

theorem belongsTo_of_mem_successorsOf {g : Grammar} {s : State}
    (h : ∀ item ∈ s.itemSet.items, item.BelongsTo g) :
    ∀ e ∈ successorsOf g s, ∀ item ∈ e.2.items, item.BelongsTo g := by
  intro e he
  obtain ⟨x, _, rfl⟩ := List.mem_map.mp he
  exact belongsTo_of_mem_successor h

theorem Proper.visit {g : Grammar} {a : Automaton} (p : Proper g a) (i : Nat) :
    Proper g (a.visit g i) := by
  cases hs : a.states[i]? with
  | none =>
    unfold Automaton.visit
    rw [hs]
    exact p
  | some s =>
    have hsets := belongsTo_of_mem_successorsOf (p.belongs s (List.mem_of_getElem? hs))
    rw [visit_eq hs]
    exact (p.addStates hsets).of_extends (extends_addAt _ i _) (size_addAt _ i _)

theorem completes_visit {g : Grammar} (wf : g.WellFormed) {a : Automaton} (proper : Proper g a)
    {i : Nat} {s : State} (hs : a.states[i]? = some s) (hnone : s.transitions = [])
    (hsize : (a.visit g i).size ≤ handleSpan) : Completes g i a (a.visit g i) := by
  have hbelongs := proper.belongs s (List.mem_of_getElem? hs)
  have hsets := belongsTo_of_mem_successorsOf hbelongs
  have hkeys : (addStates (successorsOf g s) a).1.map Prod.fst = nextSymbols g s.itemSet.items :=
    (map_fst_addStates _ a).trans (map_fst_successorsOf g s)
  have hproper := proper.visit i
  rw [visit_eq hs] at hsize hproper ⊢
  rw [size_addAt] at hsize
  have hadded := proper.added_addStates hsets hsize
  generalize (addStates (successorsOf g s) a).1 = targets at *
  generalize (addStates (successorsOf g s) a).2 = b at *
  have hcomplete := (completeBy_addAll wf hadded hkeys (proper.id_eq i s hs) hbelongs
    hnone).of_extends (extends_addAt b i (transitionsOf g targets i s))
  generalize transitionsOf g targets i s = ts at hproper hcomplete ⊢
  obtain ⟨old, hb, hfresh⟩ := hadded.states_eq
  have hlt : ∀ n, n < a.size → b.states[n]? = a.states[n]? := fun n hn => by
    rw [hb, List.getElem?_append_left hn]
  have hi : i < a.size := (List.getElem?_eq_some_iff.mp hs).1
  have hhere : (b.addAt i ts).states[i]? = some (s.addAll ts) :=
    getElem?_addAt_self ((hlt i hi).trans hs) ts
  refine
    { proper := hproper
      grown := (extends_addAt b i ts).trans hadded.extends
      here := ⟨_, hhere, _, hcomplete⟩
      kept := fun n hn hne => (getElem?_addAt_of_ne b hne ts).trans (hlt n hn)
      fresh := fun n s' hge hs' => ?_ }
  have hn : n < b.size := by
    rw [← size_addAt b i ts]
    exact (List.getElem?_eq_some_iff.mp hs').1
  obtain ⟨x, hx, id, hmem, hindex, hholds⟩ := hadded.exists_successor hge hn
  refine ⟨?_, ?_, x, ?_⟩
  · rw [getElem?_addAt_of_ne b (Nat.ne_of_gt (Nat.lt_of_lt_of_le hi hge)), hb,
      List.getElem?_append_right hge] at hs'
    exact hfresh s' (List.mem_of_getElem? hs')
  · obtain ⟨s'', hs'', hitems⟩ := hholds.of_extends (extends_addAt b i ts)
    rw [hindex, hs'] at hs''
    cases hs''
    intro parent hparent child hchild
    exact (hitems child).mpr
      (ItemSet.closed_close g _ parent ((hitems parent).mp hparent) child hchild)
  · obtain ⟨item, hitem, hnext⟩ := mem_nextSymbols.mp hx
    have htarget : targetOf targets x = id := by
      rw [targetOf, lookup_eq_some_of_mem (hkeys ▸ nodup_eraseDups _) hmem]
      rfl
    have hitem' : item ∈ (s.addAll ts).itemSet.items := by
      rw [State.itemSet_addAll]
      exact hitem
    obtain ⟨t, ht, hsymbol, hto⟩ := hcomplete.exists_transition wf hitem' hnext
    exact ⟨_, t, id, hhere, ht, hsymbol, htarget ▸ hto, hindex⟩

/-- One visit moves the walk on by one state. -/
theorem Walked.visit {g : Grammar} (wf : g.WellFormed) {a : Automaton} {i : Nat}
    (w : Walked g i a) (hi : i < a.size) (hsize : (a.visit g i).size ≤ handleSpan) :
    Walked g (i + 1) (a.visit g i) := by
  obtain ⟨s, hs⟩ : ∃ s, a.states[i]? = some s := ⟨_, List.getElem?_eq_getElem hi⟩
  have hnone : s.transitions = [] := w.waiting i s (Nat.le_refl i) hs
  have c := completes_visit wf w.proper hs hnone hsize
  generalize a.visit g i = b at c
  -- the state visited had no transitions before, so every path is still there
  have hpath : ∀ n, n < a.size → ∃ xs, b.Path 0 xs n := by
    intro n hn
    obtain ⟨xs, hxs⟩ := w.reached n hn
    refine ⟨xs, hxs.mono fun m s' hs' => ?_⟩
    by_cases hm : m = i
    · rw [hm, hs] at hs'
      cases hs'
      obtain ⟨s'', hs'', _⟩ := c.here
      refine ⟨s'', hm ▸ hs'', fun t ht => ?_⟩
      rw [hnone] at ht
      exact absurd ht List.not_mem_nil
    · exact ⟨s', (c.kept m (List.getElem?_eq_some_iff.mp hs').1 hm).trans hs', fun t ht => ht⟩
  refine
    { proper := c.proper
      closed := fun s' hs' => ?_
      visited := fun n s' hn hs' => ?_
      waiting := fun n s' hn hs' => ?_
      reached := fun n hn => ?_ }
  · obtain ⟨n, hn⟩ := List.mem_iff_getElem?.mp hs'
    rcases Nat.lt_or_ge n a.size with hlt | hge
    · obtain ⟨s'', hs'', _, hset⟩ := c.grown n _ (List.getElem?_eq_getElem hlt)
      rw [hn] at hs''
      cases hs''
      rw [hset]
      exact w.closed _ (List.getElem_mem hlt)
    · exact (c.fresh n s' hge hn).2.1
  · by_cases hni : n = i
    · obtain ⟨s'', hs'', hcomplete⟩ := c.here
      rw [hni, hs''] at hs'
      cases hs'
      exact hcomplete
    · have hn : n < i := by omega
      rw [c.kept n (by omega) hni] at hs'
      exact (w.visited n s' hn hs').of_extends c.grown
  · rcases Nat.lt_or_ge n a.size with hlt | hge
    · rw [c.kept n hlt (by omega)] at hs'
      exact w.waiting n s' (by omega) hs'
    · exact (c.fresh n s' hge hs').1
  · rcases Nat.lt_or_ge n a.size with hlt | hge
    · exact hpath n hlt
    · obtain ⟨_, _, x, hedge⟩ := c.fresh n _ hge (List.getElem?_eq_getElem hn)
      obtain ⟨xs, hxs⟩ := hpath i hi
      exact ⟨xs ++ [x], .snoc hxs hedge⟩

/-- A walk with a large enough bound goes on to the last state. -/
theorem Walked.populateFrom {g : Grammar} (wf : g.WellFormed) {bound i : Nat} {a : Automaton}
    (w : Walked g i a) (hbound : Nat.pow 2 g.items.length ≤ i + bound)
    (hsize : (populateFrom g bound i a).size ≤ handleSpan) :
    ∃ j, (populateFrom g bound i a).size ≤ j ∧ Walked g j (populateFrom g bound i a) := by
  induction bound generalizing i a with
  | zero =>
    exact ⟨i, Nat.le_trans w.proper.size_le hbound, w⟩
  | succ bound ih =>
    rw [Automaton.populateFrom] at hsize ⊢
    split
    · rename_i hi
      rw [if_pos hi] at hsize
      have hvisit : (a.visit g i).size ≤ handleSpan :=
        Nat.le_trans (extends_populateFrom g bound (i + 1) _).size_le hsize
      exact ih (w.visit wf hi hvisit) (by omega) hsize
    · rename_i hi
      exact ⟨i, Nat.le_of_not_lt hi, w⟩

/-! ## From the first state -/

theorem mem_startSet {g : Grammar} (wf : g.WellFormed) {item : Item} :
    item ∈ (startSet g).items ↔ ItemSet.Closure g [⟨Handle.ofNat 0, 0⟩] item := by
  obtain ⟨start, _, hzero, _⟩ := wf.exists_start
  have hlen : 0 < g.rules.length := (List.getElem?_eq_some_iff.mp hzero).1
  have hrules : ∀ r, r ∈ g.rulesFor .accept ↔ r = Handle.ofNat 0 := by
    intro r
    rw [wf.mem_rulesFor]
    constructor
    · rintro ⟨hr, hleft⟩
      exact Handle.ext ((wf.leftOf_eq_accept hr).mp hleft)
    · rintro rfl
      exact ⟨hlen, (wf.leftOf_eq_accept hlen).mpr rfl⟩
  have hkernel : ∀ k, k ∈ (ItemSet.ofList ((g.rulesFor .accept).map fun r => ⟨r, 0⟩)).items ↔
      k ∈ [(⟨Handle.ofNat 0, 0⟩ : Item)] := by
    intro k
    rw [ItemSet.mem_items_ofList, List.mem_map, List.mem_singleton]
    constructor
    · rintro ⟨r, hr, rfl⟩
      rw [(hrules r).mp hr]
    · rintro rfl
      exact ⟨_, (hrules _).mpr rfl, rfl⟩
  rw [startSet, ItemSet.mem_close]
  exact ItemSet.Closure.congr hkernel

theorem states_initial (g : Grammar) :
    (initial g).states = [.make (Handle.ofNat 0) (startSet g)] := rfl

theorem belongsTo_of_mem_startSet {g : Grammar} :
    ∀ item ∈ (startSet g).items, item.BelongsTo g := by
  intro item hitem
  rw [startSet, ItemSet.mem_close] at hitem
  refine hitem.belongsTo fun k hk => ?_
  obtain ⟨r, hr, rfl⟩ := List.mem_map.mp (ItemSet.mem_items_ofList.mp hk)
  exact ⟨Grammar.index_lt_of_mem_rulesFor hr, Nat.zero_le _⟩

theorem walked_initial (g : Grammar) : Walked g 0 (initial g) where
  proper := (Proper.empty g).addState belongsTo_of_mem_startSet
  closed := fun s hs => by
    rw [states_initial, List.mem_singleton] at hs
    rw [hs]
    exact ItemSet.closed_close g _
  visited := fun n s hn => absurd hn (Nat.not_lt_zero n)
  waiting := fun n s _ hs => by
    have hs := List.mem_of_getElem? hs
    rw [states_initial, List.mem_singleton] at hs
    rw [hs]
    rfl
  reached := fun n hn => by
    have hn : n < 1 := hn
    exact ⟨[], by rw [Nat.lt_one_iff.mp hn]; exact .nil⟩

theorem walked_build {g : Grammar} (wf : g.WellFormed) (hsize : (build g).size ≤ handleSpan) :
    Walked g (build g).size (build g) := by
  have hbound : Nat.pow 2 g.items.length ≤ 0 + Nat.pow 2 g.items.length :=
    Nat.le_of_eq (Nat.zero_add _).symm
  obtain ⟨j, hj, w⟩ := (walked_initial g).populateFrom wf hbound hsize
  refine { w with
    visited := fun n s hn => w.visited n s (Nat.lt_of_lt_of_le hn hj)
    waiting := fun n s hn hs => ?_ }
  exact absurd (List.getElem?_eq_some_iff.mp hs).1 (Nat.not_lt_of_le hn)

theorem holdsClosure_start {g : Grammar} (wf : g.WellFormed) :
    (build g).HoldsClosure g (Handle.ofNat 0) [⟨Handle.ofNat 0, 0⟩] := by
  have h : (initial g).HoldsClosure g (Handle.ofNat 0) [⟨Handle.ofNat 0, 0⟩] :=
    ⟨_, rfl, fun _ => mem_startSet wf⟩
  exact h.of_extends (extends_populateFrom g _ 0 (initial g))

end Automaton

namespace Grammar

theorem WellFormed.canonical {g : Grammar} (wf : g.WellFormed)
    (hsize : (Automaton.build g).size < handleSpan) :
    Automaton.Canonical g (Automaton.build g) := by
  have w := Automaton.walked_build wf (Nat.le_of_lt hsize)
  obtain ⟨start, hstart, hzero, _⟩ := wf.exists_start
  have hlen : 0 < g.rules.length := (List.getElem?_eq_some_iff.mp hzero).1
  have hrule : g.rule? (Handle.ofNat 0) = some (Builder.acceptRule start) := hzero
  refine
    { index_id := fun _ _ => w.proper.numbered.index_id (Nat.le_of_lt hsize)
      start := ⟨Automaton.holdsClosure_start wf, start, hstart,
        (wf.leftOf_eq_accept hlen).mpr rfl, rightOf_of_rule? hrule⟩
      closed := fun s hs => ItemSet.items_close_of_closed (w.closed s hs)
      distinct := fun _ _ _ _ => w.proper.numbered.eq_of_items
      reached := w.reached
      complete := fun s hs => ?_ }
  obtain ⟨n, hn, rfl⟩ := List.mem_iff_getElem.mp hs
  exact w.visited n _ hn (List.getElem?_eq_getElem hn)

/-- Symbols, rules and states all have handles of their own. -/
structure Fits (g : Grammar) : Prop where
  symbols : g.symbols.length < handleSpan
  rules : g.rules.length < handleSpan
  states : (Automaton.build g).size < handleSpan

instance (g : Grammar) : Decidable g.Fits :=
  decidable_of_iff (g.symbols.length < handleSpan ∧ g.rules.length < handleSpan ∧
      (Automaton.build g).size < handleSpan)
    ⟨fun h => ⟨h.1, h.2.1, h.2.2⟩, fun h => ⟨h.symbols, h.rules, h.states⟩⟩

/-- Lists of items, with a list that may be empty in front: `list ::= list item |`
and `item ::= x`. -/
def itemList : List Bnf.Definition :=
  [⟨"list", [⟨[⟨"list", none⟩, ⟨"item", none⟩], 0⟩, ⟨[], 0⟩]⟩, ⟨"item", [⟨[⟨"x", none⟩], 0⟩]⟩]

end Grammar

namespace Automaton

/-- The automaton of a grammar is the canonical collection of its item sets. -/
theorem build_canonical {g : Grammar} (built : g.Built) (fits : g.Fits) :
    Canonical g (build g) :=
  (built.wellFormed fits.symbols fits.rules).canonical fits.states

theorem build_canonical_itemList : ∃ g : Grammar,
    Grammar.ofDefinitions Grammar.itemList = .ok g ∧ g.Fits ∧ Canonical g (build g) := by
  obtain ⟨g, hg, hfits⟩ : ∃ g, Grammar.ofDefinitions Grammar.itemList = .ok g ∧
      decide g.Fits = true := exists_ok_of_any (by decide +kernel)
  have fits : g.Fits := of_decide_eq_true hfits
  exact ⟨g, hg, fits, build_canonical (.ofDefinitions hg) fits⟩

end Automaton
end ShiftReduce
