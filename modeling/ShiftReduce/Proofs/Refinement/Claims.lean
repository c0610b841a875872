/-
What input a transition claims.

A lookahead of one position at most allows what is in its set, or everything if it has
none; `Allows` says which.  Two lookaheads of input symbols that are not disjoint allow
something in common, and a lookahead without what another claims allows the rest.

A transition applies at an input symbol if it carries a lookahead and that allows the
symbol.  Two transitions on one symbol that apply at one input symbol but do different
things are rivals there, and what carries no lookahead is a bystander to all this.
-/
import ShiftReduce.Proofs.Automaton.Conflict
import ShiftReduce.Proofs.Automaton.InputSymbols
import ShiftReduce.Proofs.Refinement.Passes

namespace ShiftReduce

namespace Lookahead

/-- The symbol is in every set.  With one set that is what the set says; without any,
every symbol is allowed. -/
def Allows (l : Lookahead) (u : SymbolId) : Prop := ∀ s ∈ l.positions, u ∈ s

theorem allows_any (u : SymbolId) : any.Allows u := fun _ hs => absurd hs List.not_mem_nil

/-- A lookahead of one position at most allows everything or is a set. -/
theorem eq_any_or_singleton {l : Lookahead} (h : l.size ≤ 1) :
    l = any ∨ ∃ s : SymbolSet, l = ⟨[s]⟩ := by
  obtain ⟨positions⟩ := l
  match positions, h with
  | [], _ => exact Or.inl rfl
  | [s], _ => exact Or.inr ⟨s, rfl⟩

theorem allows_singleton {s : SymbolSet} {u : SymbolId} : Allows ⟨[s]⟩ u ↔ u ∈ s :=
  List.forall_mem_singleton

theorem isDead_of_allows {l : Lookahead} {u : SymbolId} (h : l.Allows u) : l.isDead = false := by
  rw [Bool.eq_false_iff, isDead, Ne, List.any_eq_true]
  rintro ⟨s, hs, hempty⟩
  have hu := h s hs
  rw [SymbolSet.isEmpty_iff.mp hempty] at hu
  exact SymbolSet.not_mem_empty u hu

/-- Two lookaheads with a symbol in common leave both transitions possible. -/
theorem disjoint_of_allows {l l' : Lookahead} {u : SymbolId} (h : l.Allows u) (h' : l'.Allows u) :
    l.disjoint l' = false := by
  rw [Bool.eq_false_iff, disjoint, Ne, List.any_eq_true]
  rintro ⟨⟨s, s'⟩, hmem, hdisjoint⟩
  obtain ⟨hs, hs'⟩ := List.of_mem_zip hmem
  exact SymbolSet.disjoint_iff.mp hdisjoint u (h s hs) (h' s' hs')

section Input

variable {g : Grammar} (wf : g.WellFormed)

include wf

theorem mem_terminalSet {u : SymbolId} : u ∈ g.terminalSet ↔ g.isTerminal u = true := by
  rw [Grammar.terminalSet, SymbolSet.mem_ofList, wf.mem_inputSymbols]

theorem Simple.without {l : Lookahead} (h : l.Simple g) (l' : Lookahead) :
    (l.without g l').Simple g := by
  refine ⟨size_without_le g h.1, ?_⟩
  rcases eq_any_or_singleton h.1 with rfl | ⟨s, rfl⟩
  · obtain ⟨positions⟩ := l'
    cases positions with
    | nil => exact h.2
    | cons claimed more =>
      refine List.forall_mem_singleton.mpr fun u hu => ?_
      exact (mem_terminalSet wf).mp (SymbolSet.mem_sdiff.mp hu).1
  · obtain ⟨positions⟩ := l'
    cases positions with
    | nil => exact h.2
    | cons claimed more =>
      refine List.forall_mem_singleton.mpr fun u hu => ?_
      exact h.2 s List.mem_cons_self u (SymbolSet.mem_sdiff.mp hu).1

omit wf in
theorem allows_of_without {l l' : Lookahead} (h : l.Simple g) {u : SymbolId}
    (hu : (l.without g l').Allows u) : l.Allows u := by
  rcases eq_any_or_singleton h.1 with rfl | ⟨own, rfl⟩
  · exact allows_any u
  · obtain ⟨positions⟩ := l'
    cases positions with
    | nil => exact hu
    | cons claimed more =>
      have hown : u ∈ own \ claimed := allows_singleton.mp hu
      exact allows_singleton.mpr (SymbolSet.mem_sdiff.mp hown).1

/-- What is left is the input that the other lookahead does not claim.  One that allows
everything claims nothing. -/
theorem allows_without {l l' : Lookahead} (h : l.Simple g) (h' : l'.Simple g) {u : SymbolId}
    (hu : g.isTerminal u = true) :
    (l.without g l').Allows u ↔ l.Allows u ∧ (l' = any ∨ ¬ l'.Allows u) := by
  rcases eq_any_or_singleton h'.1 with rfl | ⟨claimed, rfl⟩
  · have hsame : l.without g any = l := by
      unfold without
      rfl
    rw [hsame]
    exact ⟨fun hl => ⟨hl, Or.inl rfl⟩, fun hl => hl.1⟩
  · have hsome : (⟨[claimed]⟩ : Lookahead) ≠ any := fun e => by cases e
    rw [or_iff_right hsome, allows_singleton]
    rcases eq_any_or_singleton h.1 with rfl | ⟨own, rfl⟩
    · have hall : any.without g ⟨[claimed]⟩ = ⟨[g.terminalSet \ claimed]⟩ := rfl
      rw [hall, allows_singleton, SymbolSet.mem_sdiff, mem_terminalSet wf]
      exact and_congr_left fun _ => ⟨fun _ => allows_any u, fun _ => hu⟩
    · have hown : without g ⟨[own]⟩ ⟨[claimed]⟩ = ⟨[own \ claimed]⟩ := rfl
      rw [hown, allows_singleton, allows_singleton, SymbolSet.mem_sdiff]

/-- A lookahead that is not dead allows something. -/
theorem Simple.exists_allowed {l : Lookahead} (h : l.Simple g) (halive : l.isDead = false) :
    ∃ u, g.isTerminal u = true ∧ l.Allows u := by
  rcases eq_any_or_singleton h.1 with rfl | ⟨s, rfl⟩
  · exact ⟨.endMarker, wf.isTerminal_endMarker, allows_any _⟩
  · have hsome : s.isEmpty = false := (Bool.or_eq_false_iff.mp halive).1
    obtain ⟨u, hu⟩ := SymbolSet.isEmpty_eq_false_iff.mp hsome
    exact ⟨u, h.2 s List.mem_cons_self u hu, allows_singleton.mpr hu⟩

/-- Two lookaheads that leave both transitions possible have a symbol in common. -/
theorem exists_allowed_of_disjoint {l l' : Lookahead} (h : l.Simple g) (h' : l'.Simple g)
    (halive : l.isDead = false) (halive' : l'.isDead = false) (hmeet : l.disjoint l' = false) :
    ∃ u, g.isTerminal u = true ∧ l.Allows u ∧ l'.Allows u := by
  rcases eq_any_or_singleton h.1 with rfl | ⟨s, rfl⟩
  · obtain ⟨u, hterminal, hu⟩ := h'.exists_allowed wf halive'
    exact ⟨u, hterminal, allows_any u, hu⟩
  · rcases eq_any_or_singleton h'.1 with rfl | ⟨s', rfl⟩
    · obtain ⟨u, hterminal, hu⟩ := h.exists_allowed wf halive
      exact ⟨u, hterminal, hu, allows_any u⟩
    · have hsets : s.disjoint s' = false := (Bool.or_eq_false_iff.mp hmeet).1
      obtain ⟨u, hu, hu'⟩ := SymbolSet.disjoint_eq_false_iff.mp hsets
      exact ⟨u, h.2 s List.mem_cons_self u hu, allows_singleton.mpr hu, allows_singleton.mpr hu'⟩

end Input

/-- A set gives up all of what is claimed. -/
theorem disjoint_without (g : Grammar) (l : Lookahead) {l' : Lookahead} (h : l' ≠ any) :
    (l.without g l').disjoint l' = true := by
  obtain ⟨positions⟩ := l
  obtain ⟨positions'⟩ := l'
  cases positions' with
  | nil => exact absurd rfl h
  | cons claimed more =>
    have apart : ∀ s : SymbolSet, (s \ claimed).disjoint claimed = true := fun s =>
      SymbolSet.disjoint_iff.mpr fun u hu => (SymbolSet.mem_sdiff.mp hu).2
    cases positions with
    | nil =>
      show ((g.terminalSet \ claimed).disjoint claimed || _) = true
      rw [apart]
      rfl
    | cons own rest =>
      show ((own \ claimed).disjoint claimed || _) = true
      rw [apart]
      rfl

end Lookahead

namespace Transition

/-- The transition carries a lookahead, and the lookahead allows the input symbol behind
the symbol of the transition. -/
def AppliesAt (t : Transition) (u : SymbolId) : Prop :=
  t.move.carriesLookahead = true ∧ t.lookahead.Allows u

/-- Two transitions of a state that both apply on one symbol at one input symbol, but do
different things. -/
structure Rivals (x : SymbolId) (t u : Transition) : Prop where
  state : t.origin.state = u.origin.state
  symbol : t.symbol = u.symbol
  outcome : t.sameOutcome u = false
  left : t.AppliesAt x
  right : u.AppliesAt x

theorem Rivals.symm {x : SymbolId} {t u : Transition} (h : Rivals x t u) : Rivals x u t :=
  ⟨h.state.symm, h.symbol.symm, (sameOutcome_comm u t).trans h.outcome, h.right, h.left⟩

theorem Rivals.conflictsWith {x : SymbolId} {t u : Transition} (h : Rivals x t u) :
    t.conflictsWith u = true :=
  conflictsWith_iff.mpr ⟨h.state, h.symbol, Lookahead.disjoint_of_allows h.left.2 h.right.2,
    h.outcome⟩

theorem lookahead_withLookahead_of_carries {t : Transition}
    (h : t.move.carriesLookahead = true) (l : Lookahead) : (t.withLookahead l).lookahead = l := by
  obtain ⟨origin, symbol, move⟩ := t
  cases move with
  | shift target l' => rfl
  | goto target => cases h
  | reduce l' => rfl
  | accept => cases h

theorem withLookahead_of_bystander {t : Transition} (h : t.move.carriesLookahead = false)
    (l : Lookahead) : t.withLookahead l = t := by
  obtain ⟨origin, symbol, move⟩ := t
  cases move with
  | shift target l' => cases h
  | goto target => rfl
  | reduce l' => cases h
  | accept => rfl

theorem lookahead_of_bystander {t : Transition} (h : t.move.carriesLookahead = false) :
    t.lookahead = .any := by
  obtain ⟨origin, symbol, move⟩ := t
  cases move with
  | shift target l' => cases h
  | goto target => rfl
  | reduce l' => cases h
  | accept => rfl

theorem kind_of_edge {t u : Transition} (h : t.edge = u.edge) : t.kind = u.kind := by
  rw [← t.kind_edge, h, u.kind_edge]

theorem carriesLookahead_of_edge {t u : Transition} (h : t.edge = u.edge) :
    t.move.carriesLookahead = u.move.carriesLookahead := by
  have keep : ∀ m : Move, (m.withLookahead .any).carriesLookahead = m.carriesLookahead := by
    intro m
    cases m <;> rfl
  rw [← keep t.move, move_of_edge h, keep]

theorem carriesLookahead_iff {t : Transition} :
    t.move.carriesLookahead = true ↔ t.kind = .reduce ∨ t.kind = .shift := by
  obtain ⟨origin, symbol, move⟩ := t
  cases move <;> simp [kind, Move.kind, Move.carriesLookahead]

theorem sameOutcome_of_edge {t t' u u' : Transition} (ht : t'.edge = t.edge)
    (hu : u'.edge = u.edge) : t'.sameOutcome u' = t.sameOutcome u := by
  have keep : ∀ t u : Transition, t.edge.sameOutcome u.edge = t.sameOutcome u := by
    intro t u
    obtain ⟨origin, symbol, move⟩ := t
    obtain ⟨origin', symbol', move'⟩ := u
    cases move <;> cases move' <;> rfl
  rw [← keep t', ht, hu, keep]

end Transition

end ShiftReduce
