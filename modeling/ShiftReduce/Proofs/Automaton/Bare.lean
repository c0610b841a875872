/-
Questions look at items and not at transitions.

`Automaton.bare` forgets the transitions of an automaton.  The items, the follow sets and the
lookaheads that transitions should carry are the same without them, and the lemmas here say so,
one for each function, in the order in which the functions use each other.  Automata that differ
in their transitions are the same once these are forgotten, so what is said here of one automaton
also compares two: `firstSet_of_bare` and `shiftLookahead_of_bare`.

A session that remembers nothing answers as a survey does, if the grammar is well-formed and the items
belong to it: a survey makes sure of each look-up that a session makes without asking.
-/
import ShiftReduce.Automaton.Session
import ShiftReduce.Proofs.Checked.Survey

namespace ShiftReduce
namespace Automaton

/-- The automaton with its transitions forgotten. -/
def bare (a : Automaton) : Automaton := ⟨a.states.map fun s => .make s.id s.itemSet⟩

variable (g : Grammar) (a : Automaton)

@[simp] theorem items_bare : a.bare.items g = a.items g := by
  simp only [items, bare, List.any_map]
  rfl

@[simp] theorem item_bare (site : Site) : a.bare.item site = a.item site := by
  simp only [item, state, state?, bare, List.getElem?_map]
  cases a.states[site.state.index]? with
  | none => rfl
  | some s => rfl

@[simp] theorem locate_bare (item : Item) : a.bare.locate g item = a.locate g item := by
  simp only [locate, bare, List.findSome?_map]
  rfl

@[simp] theorem followers_bare : a.bare.followers g = a.followers g := by
  rw [followers, items_bare, followers]

@[simp] theorem followTable_bare : a.bare.followTable g = a.followTable g := by
  rw [followTable, followers_bare, followTable]

@[simp] theorem advancedSite_bare (origin : Site) :
    a.bare.advancedSite g origin = a.advancedSite g origin := by
  simp only [advancedSite, item_bare, locate_bare]

variable {g a} {b : Automaton}

theorem item_of_bare (h : b.bare = a.bare) (site : Site) : b.item site = a.item site := by
  rw [← item_bare, h, item_bare]

theorem advancedSite_of_bare (h : b.bare = a.bare) (origin : Site) :
    b.advancedSite g origin = a.advancedSite g origin := by
  rw [← advancedSite_bare, h, advancedSite_bare]

theorem BelongsTo.of_bare (ha : a.BelongsTo g) (h : b.bare = a.bare) : b.BelongsTo g := by
  intro s hs
  have hmem : (State.make s.id s.itemSet) ∈ a.bare.states := h ▸ List.mem_map_of_mem hs
  obtain ⟨s', hs', e⟩ := List.mem_map.mp hmem
  have hset : (State.make s'.id s'.itemSet).itemSet = (State.make s.id s.itemSet).itemSet :=
    congrArg State.itemSet e
  intro item hitem
  exact ha s' hs' item (hset ▸ hitem)

theorem items_of_bare (h : b.bare = a.bare) : b.items g = a.items g := by
  rw [← items_bare, h, items_bare]

end Automaton

/-! ## Surveys -/

namespace Survey

variable {g : Grammar} {a b : Automaton}

theorem withFollow_of_bare (h : b.bare = a.bare) (follow : List SymbolSet) :
    withFollow g b follow = { withFollow g a follow with automaton := b } := by
  rw [withFollow, withFollow, Automaton.items_of_bare h]

theorem make_of_bare (h : b.bare = a.bare) : make g b = { make g a with automaton := b } := by
  rw [make, make, ← Automaton.followTable_bare g b, h, Automaton.followTable_bare,
    withFollow_of_bare h]

/-- Of automata that differ in their transitions the surveys are made alike. -/
theorem survey_of_bare (h : b.bare = a.bare) {v : Survey} (hv : Checked.survey g a = .ok v) :
    Checked.survey g b = .ok { v with automaton := b } := by
  obtain ⟨follow, hfollow, hv⟩ := bind_eq_ok.mp hv
  cases hv
  rw [← Automaton.items_of_bare h] at hfollow
  exact bind_eq_ok.mpr ⟨follow, hfollow, congrArg Except.ok (withFollow_of_bare h follow)⟩

variable {v : Survey} (h : b.bare = v.automaton.bare)

include h

theorem firstSet_of_bare (site : Site) :
    firstSet { v with automaton := b } site = v.firstSet site := by
  rw [firstSet, firstSet, Automaton.item_of_bare h]

theorem shiftLookahead_of_bare (origin : Site) :
    shiftLookahead { v with automaton := b } origin = v.shiftLookahead origin := by
  simp only [shiftLookahead, firstSet_of_bare h]
  rw [Automaton.advancedSite_of_bare h]

end Survey

/-! ## Sessions that remember nothing -/

namespace Session

variable {g : Grammar} (wf : g.WellFormed) {a : Automaton}

include wf

theorem reduceLookahead_start (left trigger : SymbolId) :
    Checked.reduceLookahead (.make g a) left trigger =
      .ok ((start a).reduceLookahead g left trigger).1 := by
  have hitems : ∀ item ∈ (Survey.make g a).items, item.BelongsTo g := fun item =>
    Automaton.belongsTo_of_mem_items wf
  rw [Checked.reduceLookahead_eq_ok wf hitems]
  by_cases h : trigger = .endMarker
  · rw [reduceLookahead, if_pos h, Survey.reduceLookahead, if_pos h]
  · rw [reduceLookahead, if_neg h]
    rfl

variable (h : a.BelongsTo g)

include h

theorem firstSet_start (site : Site) :
    ((start a).firstSet g site).1 = (Survey.make g a).firstSet site := by
  simp only [firstSet, start, List.lookup_nil]
  cases hitem : a.item site with
  | error e =>
    rw [Survey.firstSet]
    show _ = a.item site >>= _
    rw [hitem]
    rfl
  | ok item =>
    rw [Survey.firstSet_eq_ok (v := .make g a) wf hitem (h.of_item hitem)]
    rfl

theorem followSet_start (site : Site) :
    ((start a).followSet g site).1 = (Survey.make g a).followSet site := by
  have hfirst := firstSet_start wf h
  simp only [followSet, start, Survey.followSet, Survey.make, Survey.withFollow] at *
  cases a.followSource g site with
  | error e => rfl
  | ok source =>
    cases source with
    | ofSymbol x => rfl
    | atSite site' => exact hfirst site'

theorem shiftLookahead_start (origin : Site) :
    ((start a).shiftLookahead g origin).1 = (Survey.make g a).shiftLookahead origin := by
  have hfirst := firstSet_start wf h
  simp only [shiftLookahead, start, Survey.shiftLookahead, Survey.make, Survey.withFollow] at *
  cases a.advancedSite g origin with
  | error e => rfl
  | ok site =>
    simp only [hfirst]
    rfl

end Session
end ShiftReduce
