/-
The canonical collection of item sets, as a property of an automaton.

`Automaton.Canonical` describes the collection without saying how it is found:
which items the first state has, where the dots moving over a symbol lead, which
transitions each item of a state accounts for, that no state occurs twice and none
is out of reach.  That `build` makes such an automaton is the subject of
`ShiftReduce.Proofs.Automaton.Population`.
-/
import ShiftReduce.Proofs.Automaton.Growth
import ShiftReduce.Proofs.Checked.Item

namespace ShiftReduce
namespace Automaton

/-! ## The collection -/

/-- A shift or goto on a symbol leads from one state to the other, both given by
their places. -/
def Edge (a : Automaton) (p : Nat) (x : SymbolId) (q : Nat) : Prop :=
  ∃ (s : State) (t : Transition) (target : StateId), a.states[p]? = some s ∧
    t ∈ s.transitions ∧ t.symbol = x ∧ t.target? = some target ∧ target.index = q

/-- Shifts and gotos that spell a sequence of symbols lead from one state to the
other. -/
inductive Path (a : Automaton) (p : Nat) : List SymbolId → Nat → Prop
  | nil : Path a p [] p
  | snoc {xs : List SymbolId} {q r : Nat} {x : SymbolId} :
      Path a p xs q → a.Edge q x r → Path a p (xs ++ [x]) r

/-- What becomes of some items when their dots move over a symbol. -/
def movedOver (g : Grammar) (items : List Item) (x : SymbolId) : List Item :=
  (items.filter fun item => item.next? g == some x).map fun item =>
    { item with dot := item.dot + 1 }

/-- What an item accounts for: on which symbol the parser does what, given where
the dots moving over a symbol lead. -/
inductive Prescribes (g : Grammar) (target : SymbolId → StateId) (item : Item) :
    SymbolId → Move → Prop
  | shift {x : SymbolId} : item.next? g = some x → g.isTerminal x = true →
      Prescribes g target item x (.shift (target x) .any)
  | goto {x : SymbolId} : item.next? g = some x → g.isNonterminal x = true →
      Prescribes g target item x (.goto (target x))
  | reduce {x : SymbolId} : item.atEnd g = true → item.rule.index ≠ 0 →
      (x ∈ g.terminals ∨ x = .endMarker) → Prescribes g target item x (.reduce .any)
  | accept : item.atEnd g = true → item.rule.index = 0 →
      Prescribes g target item .endMarker .accept

/-- The state with this number has exactly the closure of a kernel. -/
def HoldsClosure (g : Grammar) (a : Automaton) (id : StateId) (kernel : List Item) : Prop :=
  ∃ s : State, a.states[id.index]? = some s ∧
    ∀ item, item ∈ s.itemSet.items ↔ ItemSet.Closure g kernel item

/-- A state has all its transitions and no others, given where each symbol leads:
to the closure of the items whose dots moved over it.  The transitions are those
the items account for, each once. -/
structure CompleteBy (g : Grammar) (a : Automaton) (target : SymbolId → StateId) (s : State) :
    Prop where
  holds : ∀ x : SymbolId, (∃ item ∈ s.itemSet.items, item.next? g = some x) →
    a.HoldsClosure g (target x) (movedOver g s.itemSet.items x)
  nodup : s.transitions.Nodup
  mem_iff : ∀ t : Transition, t ∈ s.transitions ↔
    ∃ item : Item, t.origin.state = s.id ∧ s.itemSet.items[t.origin.position]? = some item ∧
      Prescribes g target item t.symbol t.move

/-- A state has all its transitions and no others. -/
def Complete (g : Grammar) (a : Automaton) (s : State) : Prop :=
  ∃ target : SymbolId → StateId, CompleteBy g a target s

/-- The canonical collection of the item sets of a grammar. -/
structure Canonical (g : Grammar) (a : Automaton) : Prop where
  /-- States are numbered by their places. -/
  index_id : ∀ (n : Nat) (s : State), a.states[n]? = some s → s.id.index = n
  /-- The first state is the closure of rule 0 with the dot in front, and rule 0
  derives the start symbol from the accepting one. -/
  start : a.HoldsClosure g (Handle.ofNat 0) [⟨Handle.ofNat 0, 0⟩] ∧
    ∃ start : SymbolId, g.start? = some start ∧ g.leftOf (Handle.ofNat 0) = .accept ∧
      g.rightOf (Handle.ofNat 0) = [start]
  /-- Closing the items of a state changes nothing. -/
  closed : ∀ s ∈ a.states, (s.itemSet.close g).items = s.itemSet.items
  /-- No two states have the same items. -/
  distinct : ∀ (m n : Nat) (s t : State), a.states[m]? = some s → a.states[n]? = some t →
    (∀ item, item ∈ s.itemSet.items ↔ item ∈ t.itemSet.items) → m = n
  /-- Every state is reached from the first one. -/
  reached : ∀ n, n < a.size → ∃ xs : List SymbolId, a.Path 0 xs n
  /-- Every state has all its transitions and no others. -/
  complete : ∀ s ∈ a.states, Complete g a s

/-! ## Moving dots -/

theorem mem_movedOver {g : Grammar} {items : List Item} {x : SymbolId} {item : Item} :
    item ∈ movedOver g items x ↔
      ∃ i ∈ items, i.next? g = some x ∧ item = { i with dot := i.dot + 1 } := by
  rw [movedOver, List.mem_map]
  constructor
  · rintro ⟨i, hi, rfl⟩
    obtain ⟨hi, hx⟩ := List.mem_filter.mp hi
    exact ⟨i, hi, beq_iff_eq.mp hx, rfl⟩
  · rintro ⟨i, hi, hx, rfl⟩
    exact ⟨i, List.mem_filter.mpr ⟨hi, beq_iff_eq.mpr hx⟩, rfl⟩

theorem belongsTo_of_mem_movedOver {g : Grammar} {items : List Item} {x : SymbolId} {item : Item}
    (h : item ∈ movedOver g items x) (hitems : ∀ i ∈ items, i.BelongsTo g) : item.BelongsTo g := by
  obtain ⟨i, hi, hx, rfl⟩ := mem_movedOver.mp h
  obtain ⟨hlt, _⟩ := List.getElem?_eq_some_iff.mp hx
  exact ⟨(hitems i hi).1, hlt⟩

theorem atEnd_iff {g : Grammar} {item : Item} (h : item.BelongsTo g) :
    item.atEnd g = true ↔ item.next? g = none := by
  rw [Item.atEnd, beq_iff_eq, Item.next?, List.getElem?_eq_none_iff]
  have := h.2
  omega

/-! ## Growing -/

theorem HoldsClosure.of_extends {g : Grammar} {a b : Automaton} {id : StateId}
    {kernel : List Item} (h : a.HoldsClosure g id kernel) (hb : b.Extends a) :
    b.HoldsClosure g id kernel := by
  obtain ⟨s, hs, hitems⟩ := h
  obtain ⟨s', hs', _, hset⟩ := hb _ s hs
  exact ⟨s', hs', fun item => by rw [hset]; exact hitems item⟩

theorem CompleteBy.of_extends {g : Grammar} {a b : Automaton} {target : SymbolId → StateId}
    {s : State} (h : CompleteBy g a target s) (hb : b.Extends a) : CompleteBy g b target s :=
  { h with holds := fun x hx => (h.holds x hx).of_extends hb }

theorem Complete.of_extends {g : Grammar} {a b : Automaton} {s : State} (h : Complete g a s)
    (hb : b.Extends a) : Complete g b s := by
  obtain ⟨target, h⟩ := h
  exact ⟨target, h.of_extends hb⟩

/-- Every symbol behind a dot leads somewhere. -/
theorem CompleteBy.exists_transition {g : Grammar} (wf : g.WellFormed) {a : Automaton}
    {target : SymbolId → StateId} {s : State} (h : CompleteBy g a target s) {item : Item}
    {x : SymbolId} (hitem : item ∈ s.itemSet.items) (hx : item.next? g = some x) :
    ∃ t ∈ s.transitions, t.symbol = x ∧ t.target? = some (target x) := by
  obtain ⟨position, hposition⟩ := List.mem_iff_getElem?.mp hitem
  have hkind : g.isTerminal x = !g.isNonterminal x :=
    Grammar.isTerminal_eq_not_isNonterminal (wf.mem_rightOf (List.mem_of_getElem? hx)).1
  by_cases ht : g.isTerminal x = true
  · exact ⟨⟨⟨s.id, position⟩, x, .shift (target x) .any⟩,
      (h.mem_iff _).mpr ⟨item, rfl, hposition, .shift hx ht⟩, rfl, rfl⟩
  · rw [hkind, Bool.not_eq_true', Bool.not_eq_false] at ht
    exact ⟨⟨⟨s.id, position⟩, x, .goto (target x)⟩,
      (h.mem_iff _).mpr ⟨item, rfl, hposition, .goto hx ht⟩, rfl, rfl⟩

theorem Edge.mono {a b : Automaton} {p q : Nat} {x : SymbolId} (h : a.Edge p x q)
    (hb : ∀ (n : Nat) (s : State), a.states[n]? = some s →
      ∃ s', b.states[n]? = some s' ∧ ∀ t ∈ s.transitions, t ∈ s'.transitions) : b.Edge p x q := by
  obtain ⟨s, t, target, hs, ht, hrest⟩ := h
  obtain ⟨s', hs', hsub⟩ := hb p s hs
  exact ⟨s', t, target, hs', hsub t ht, hrest⟩

theorem Path.mono {a b : Automaton} {p q : Nat} {xs : List SymbolId} (h : a.Path p xs q)
    (hb : ∀ (n : Nat) (s : State), a.states[n]? = some s →
      ∃ s', b.states[n]? = some s' ∧ ∀ t ∈ s.transitions, t ∈ s'.transitions) :
    b.Path p xs q := by
  induction h with
  | nil => exact .nil
  | snoc _ hedge ih => exact .snoc ih (hedge.mono hb)

/-! ## What a canonical collection is good for -/

/-- No transition of the construction looks ahead. -/
theorem Prescribes.lookahead_eq {g : Grammar} {target : SymbolId → StateId} {item : Item}
    {x : SymbolId} {move : Move} (h : Prescribes g target item x move) : move.lookahead = .any := by
  cases h <;> rfl

theorem Prescribes.withLookahead_any {g : Grammar} {target : SymbolId → StateId} {item : Item}
    {x : SymbolId} {move : Move} (h : Prescribes g target item x move) :
    move.withLookahead .any = move := by
  cases h <;> rfl

theorem Prescribes.of_shift {g : Grammar} {target : SymbolId → StateId} {item : Item}
    {x : SymbolId} {id : StateId} {l : Lookahead} (h : Prescribes g target item x (.shift id l)) :
    item.next? g = some x ∧ g.isTerminal x = true ∧ id = target x := by
  cases h with
  | shift hx ht => exact ⟨hx, ht, rfl⟩

theorem Prescribes.of_goto {g : Grammar} {target : SymbolId → StateId} {item : Item}
    {x : SymbolId} {id : StateId} (h : Prescribes g target item x (.goto id)) :
    item.next? g = some x ∧ g.isNonterminal x = true ∧ id = target x := by
  cases h with
  | goto hx hn => exact ⟨hx, hn, rfl⟩

theorem Prescribes.of_reduce {g : Grammar} {target : SymbolId → StateId} {item : Item}
    {x : SymbolId} {l : Lookahead} (h : Prescribes g target item x (.reduce l)) :
    item.atEnd g = true ∧ item.rule.index ≠ 0 := by
  cases h with
  | reduce hend hne _ => exact ⟨hend, hne⟩

theorem Prescribes.of_accept {g : Grammar} {target : SymbolId → StateId} {item : Item}
    {x : SymbolId} (h : Prescribes g target item x .accept) :
    item.atEnd g = true ∧ item.rule.index = 0 ∧ x = .endMarker := by
  cases h with
  | accept hend hzero => exact ⟨hend, hzero, rfl⟩

theorem Prescribes.of_target? {g : Grammar} {target : SymbolId → StateId} {item : Item}
    {x : SymbolId} {move : Move} {id : StateId} (h : Prescribes g target item x move)
    (hto : move.target? = some id) : id = target x ∧ item.next? g = some x := by
  cases h with
  | shift hx _ =>
    cases hto
    exact ⟨rfl, hx⟩
  | goto hx _ =>
    cases hto
    exact ⟨rfl, hx⟩
  | reduce _ _ _ => cases hto
  | accept _ _ => cases hto

theorem Prescribes.eq_goto {g : Grammar} {target : SymbolId → StateId} {item : Item}
    {x : SymbolId} {move : Move} {id : StateId} (h : Prescribes g target item x move)
    (hx : g.isNonterminal x = true) (hto : move.target? = some id) : move = .goto id := by
  cases h with
  | shift _ hterminal =>
    rw [Grammar.isTerminal_of_isNonterminal hx] at hterminal
    cases hterminal
  | goto _ _ =>
    cases hto
    rfl
  | reduce _ _ _ => cases hto
  | accept _ _ => cases hto

namespace Canonical

variable {g : Grammar} {a : Automaton} (hc : Canonical g a)

include hc

/-- Every transition has an item that accounts for it. -/
theorem prescribes_of_mem {n : Nat} {s : State} (hs : a.states[n]? = some s) {t : Transition}
    (ht : t ∈ s.transitions) : ∃ (target : SymbolId → StateId) (item : Item),
      CompleteBy g a target s ∧ a.item t.origin = .ok item ∧
        s.itemSet.items[t.origin.position]? = some item ∧
          Prescribes g target item t.symbol t.move := by
  obtain ⟨target, hcomplete⟩ := hc.complete s (List.mem_of_getElem? hs)
  obtain ⟨item, hstate, hposition, hprescribes⟩ := (hcomplete.mem_iff t).mp ht
  refine ⟨target, item, hcomplete, item_eq_ok.mpr ⟨s, ?_, hposition⟩, hposition, hprescribes⟩
  rw [hstate, hc.index_id n s hs]
  exact hs

theorem any_lookahead {s : State} (hs : s ∈ a.states) {t : Transition} (ht : t ∈ s.transitions) :
    t.lookahead = .any := by
  obtain ⟨n, hn⟩ := List.mem_iff_getElem?.mp hs
  obtain ⟨_, _, _, _, _, hprescribes⟩ := hc.prescribes_of_mem hn ht
  exact hprescribes.lookahead_eq

/-- An edge leads from a state with the symbol behind some dot to the closure of the
items whose dots moved over it. -/
theorem edge {p q : Nat} {x : SymbolId} (h : a.Edge p x q) :
    ∃ s s' : State, a.states[p]? = some s ∧ a.states[q]? = some s' ∧
      (∃ item ∈ s.itemSet.items, item.next? g = some x) ∧
        ∀ item, item ∈ s'.itemSet.items ↔
          ItemSet.Closure g (movedOver g s.itemSet.items x) item := by
  obtain ⟨s, t, target, hs, ht, rfl, hto, rfl⟩ := h
  obtain ⟨leads, item, hcomplete, _, hposition, hprescribes⟩ := hc.prescribes_of_mem hs ht
  obtain ⟨rfl, hx⟩ := hprescribes.of_target? hto
  have hitem := List.mem_of_getElem? hposition
  obtain ⟨s', hs', hitems⟩ := hcomplete.holds t.symbol ⟨item, hitem, hx⟩
  exact ⟨s, s', hs, hs', ⟨item, hitem, hx⟩, hitems⟩

/-- All items belong to the grammar: those of the first state do, and moving dots
and closing keeps it so. -/
theorem belongsTo (wf : g.WellFormed) {n : Nat} {s : State} (hs : a.states[n]? = some s) :
    ∀ item ∈ s.itemSet.items, item.BelongsTo g := by
  obtain ⟨xs, hpath⟩ := hc.reached n (List.getElem?_eq_some_iff.mp hs).1
  induction hpath generalizing s with
  | nil =>
    obtain ⟨s₀, hs₀, hitems⟩ := hc.start.1
    have hs₀ : a.states[0]? = some s₀ := hs₀
    rw [hs] at hs₀
    cases hs₀
    intro item hitem
    obtain ⟨start, _, hzero, _⟩ := wf.exists_start
    refine ((hitems item).mp hitem).belongsTo fun k hk => ?_
    rw [List.mem_singleton.mp hk]
    exact ⟨(List.getElem?_eq_some_iff.mp hzero).1, Nat.zero_le _⟩
  | snoc _ hedge ih =>
    obtain ⟨s₁, s₂, hs₁, hs₂, _, hitems⟩ := hc.edge hedge
    rw [hs] at hs₂
    cases hs₂
    intro item hitem
    exact ((hitems item).mp hitem).belongsTo fun k hk =>
      belongsTo_of_mem_movedOver hk (ih hs₁)

theorem belongsTo_grammar (wf : g.WellFormed) : a.BelongsTo g := by
  intro s hs
  obtain ⟨n, hn⟩ := List.mem_iff_getElem?.mp hs
  exact hc.belongsTo wf hn

theorem front_mem (wf : g.WellFormed) {n : Nat} {s : State} (hs : a.states[n]? = some s)
    {item : Item} (hitem : item ∈ s.itemSet.items) {r : RuleId}
    (hx : item.next? g = some (g.leftOf r)) (hr : r.index < g.rules.length) :
    (⟨r, 0⟩ : Item) ∈ s.itemSet.items := by
  have hclosed := hc.closed s (List.mem_of_getElem? hs)
  rw [← hclosed] at hitem ⊢
  refine ItemSet.closed_close g s.itemSet item hitem _ (ItemSet.mem_introduced.mpr ?_)
  exact ⟨g.leftOf r, r, hx, wf.isNonterminal_leftOf hr, wf.mem_rulesFor.mpr ⟨hr, rfl⟩, rfl⟩

theorem moved_mem_items (wf : g.WellFormed) {n : Nat} {s : State} (hs : a.states[n]? = some s)
    {item : Item} (hitem : item ∈ s.itemSet.items) {x : SymbolId} (hx : item.next? g = some x) :
    { item with dot := item.dot + 1 } ∈ a.items g := by
  obtain ⟨target, hcomplete⟩ := hc.complete s (List.mem_of_getElem? hs)
  obtain ⟨s', hs', hitems⟩ := hcomplete.holds x ⟨item, hitem, hx⟩
  have hmoved : { item with dot := item.dot + 1 } ∈ s'.itemSet.items :=
    (hitems _).mpr (.kernel (mem_movedOver.mpr ⟨item, hitem, hx, rfl⟩))
  have hbelongs := hc.belongsTo wf hs' _ hmoved
  rw [items, List.mem_filter]
  refine ⟨(Grammar.mem_items (Nat.le_of_lt wf.rules_lt)).mpr hbelongs, ?_⟩
  rw [List.any_eq_true]
  exact ⟨s', List.mem_of_getElem? hs', List.contains_iff_mem.mpr hmoved⟩

end Canonical

end Automaton
end ShiftReduce
