/-
Input that two lookaheads both admit.

The parser cannot choose between two transitions if some input is admitted by both of
their lookaheads.  `disjoint` decides this by comparing the lookaheads position by position
as far as both of them go.  Beyond the end of the shorter one nothing is compared, and
nothing has to be: the longer one is free there, unless it is dead.  So an input that both
admit is put together from a symbol of each pair of sets, and then from a symbol of each
set that is left (`exists_admits_of_disjoint_eq_false`).

Taking the input of one set away from a lookahead leaves what the set does not have
(`admits_without_iff`).  A lookahead without any position must first be told what input
there is, so this is said of input symbols only.
-/
import ShiftReduce.Proofs.Automaton.Lookahead
import ShiftReduce.Proofs.Refinement.Claims

namespace ShiftReduce

namespace Lookahead

theorem isDead_cons (s : SymbolSet) (more : List SymbolSet) :
    isDead ⟨s :: more⟩ = (s.isEmpty || isDead ⟨more⟩) := rfl

theorem disjoint_cons (s s' : SymbolSet) (more more' : List SymbolSet) :
    disjoint ⟨s :: more⟩ ⟨s' :: more'⟩ = (s.disjoint s' || disjoint ⟨more⟩ ⟨more'⟩) := rfl

/-- A lookahead that is not dead admits some input. -/
theorem exists_admits {l : Lookahead} (halive : l.isDead = false) : ∃ rest, l.Admits rest := by
  obtain ⟨sets⟩ := l
  induction sets with
  | nil => exact ⟨[], admits_any []⟩
  | cons s more ih =>
    rw [isDead_cons, Bool.or_eq_false_iff] at halive
    obtain ⟨x, hx⟩ := SymbolSet.isEmpty_eq_false_iff.mp halive.1
    obtain ⟨rest, hrest⟩ := ih halive.2
    exact ⟨x :: rest, admits_cons.mpr ⟨hx, hrest⟩⟩

/-- Where no position keeps two lookaheads apart, they have input in common.  The induction is
on both lists of sets at once; at the end of the shorter one any input of the longer one
will do. -/
theorem exists_admits_of_disjoint_eq_false {l l' : Lookahead} (halive : l.isDead = false)
    (halive' : l'.isDead = false) (hmeet : l.disjoint l' = false) :
    ∃ rest, l.Admits rest ∧ l'.Admits rest := by
  obtain ⟨sets⟩ := l
  obtain ⟨sets'⟩ := l'
  induction sets generalizing sets' with
  | nil =>
    obtain ⟨rest, hrest⟩ := exists_admits halive'
    exact ⟨rest, admits_any rest, hrest⟩
  | cons s more ih =>
    cases sets' with
    | nil =>
      obtain ⟨rest, hrest⟩ := exists_admits halive
      exact ⟨rest, hrest, admits_any rest⟩
    | cons s' more' =>
      rw [isDead_cons, Bool.or_eq_false_iff] at halive halive'
      rw [disjoint_cons, Bool.or_eq_false_iff] at hmeet
      obtain ⟨x, hx, hx'⟩ := SymbolSet.disjoint_eq_false_iff.mp hmeet.1
      obtain ⟨rest, hrest, hrest'⟩ := ih halive.2 more' halive'.2 hmeet.2
      exact ⟨x :: rest, admits_cons.mpr ⟨hx, hrest⟩, admits_cons.mpr ⟨hx', hrest'⟩⟩

theorem not_admits_of_disjoint {l l' : Lookahead} (h : l.disjoint l' = true)
    (rest : List SymbolId) : ¬ (l.Admits rest ∧ l'.Admits rest) := by
  rintro ⟨hrest, hrest'⟩
  rw [disjoint_eq_false_of_admits hrest hrest'] at h
  cases h

theorem disjoint_eq_false_iff {l l' : Lookahead} (halive : l.isDead = false)
    (halive' : l'.isDead = false) :
    l.disjoint l' = false ↔ ∃ rest, l.Admits rest ∧ l'.Admits rest := by
  constructor
  · exact exists_admits_of_disjoint_eq_false halive halive'
  · rintro ⟨rest, hrest, hrest'⟩
    exact disjoint_eq_false_of_admits hrest hrest'

/-- Without the input that begins with a symbol of a set, the input is left that begins with
another input symbol. -/
theorem admits_without_iff {g : Grammar} {l : Lookahead} {claimed : SymbolSet} {x : SymbolId}
    {rest : List SymbolId} (hx : x ∈ g.inputSymbols) :
    (l.without g ⟨[claimed]⟩).Admits (x :: rest) ↔ l.Admits (x :: rest) ∧ ¬ x ∈ claimed := by
  obtain ⟨sets⟩ := l
  cases sets with
  | nil =>
    have hall : without g ⟨[]⟩ ⟨[claimed]⟩ = ⟨[g.terminalSet \ claimed]⟩ := rfl
    have hinput : x ∈ g.terminalSet := SymbolSet.mem_ofList.mpr hx
    rw [hall, admits_cons, SymbolSet.mem_sdiff]
    constructor
    · rintro ⟨⟨_, hclaimed⟩, _⟩
      exact ⟨admits_any _, hclaimed⟩
    · rintro ⟨_, hclaimed⟩
      exact ⟨⟨hinput, hclaimed⟩, admits_any rest⟩
  | cons own more =>
    have hown : without g ⟨own :: more⟩ ⟨[claimed]⟩ = ⟨(own \ claimed) :: more⟩ := rfl
    rw [hown, admits_cons, admits_cons, SymbolSet.mem_sdiff]
    constructor
    · rintro ⟨⟨hmem, hclaimed⟩, hrest⟩
      exact ⟨⟨hmem, hrest⟩, hclaimed⟩
    · rintro ⟨⟨hmem, hrest⟩, hclaimed⟩
      exact ⟨⟨hmem, hclaimed⟩, hrest⟩

/-- A lookahead of one position claims the input that begins with a symbol of its set, and a
lookahead without it is left with the rest of its input. -/
theorem admits_without_of_size {g : Grammar} {l l' : Lookahead} (hsize : l'.size = 1)
    {rest : List SymbolId} (hne : rest ≠ []) (hrest : ∀ x ∈ rest, x ∈ g.inputSymbols) :
    (l.without g l').Admits rest ↔ l.Admits rest ∧ ¬ l'.Admits rest := by
  obtain ⟨sets⟩ := l'
  obtain ⟨claimed, rfl⟩ := List.length_eq_one_iff.mp hsize
  obtain ⟨x, more, rfl⟩ := List.exists_cons_of_ne_nil hne
  have hclaims : Admits ⟨[claimed]⟩ (x :: more) ↔ x ∈ claimed := by
    rw [admits_cons]
    exact and_iff_left (admits_any more)
  rw [hclaims]
  exact admits_without_iff (hrest x List.mem_cons_self)

end Lookahead

namespace Transition

/-- Two transitions on one symbol of a state are in conflict exactly if they do different things
with some input that both admit. -/
theorem conflictsWith_iff_admits {t u : Transition} (hstate : t.origin.state = u.origin.state)
    (hsymbol : t.symbol = u.symbol) (halive : t.lookahead.isDead = false)
    (halive' : u.lookahead.isDead = false) :
    t.conflictsWith u = true ↔ t.sameOutcome u = false ∧
      ∃ rest, t.lookahead.Admits rest ∧ u.lookahead.Admits rest := by
  rw [conflictsWith_iff, ← Lookahead.disjoint_eq_false_iff halive halive']
  constructor
  · rintro ⟨_, _, hmeet, houtcome⟩
    exact ⟨houtcome, hmeet⟩
  · rintro ⟨houtcome, hmeet⟩
    exact ⟨hstate, hsymbol, hmeet, houtcome⟩

end Transition

namespace Lookahead

/-- What the operations on lookaheads say of the input they admit.  Disjoint lookaheads have no
input in common, and others have some unless one of them is dead.  So conflict is mutual, and it
is a difference in outcome at some input that both transitions admit.  Taking a lookahead of one
position away leaves the input that it does not admit, and nothing in common with it. -/
theorem operations_by_input :
    (∀ l l' : Lookahead, l.disjoint l' = true →
      ∀ rest, ¬ (l.Admits rest ∧ l'.Admits rest)) ∧
    (∀ l l' : Lookahead, l.isDead = false → l'.isDead = false → l.disjoint l' = false →
      ∃ rest, l.Admits rest ∧ l'.Admits rest) ∧
    (∀ t u : Transition, t.origin.state = u.origin.state → t.symbol = u.symbol →
      t.lookahead.isDead = false → u.lookahead.isDead = false →
      t.conflictsWith u = u.conflictsWith t ∧
      (t.conflictsWith u = true ↔ t.sameOutcome u = false ∧
        ∃ rest, t.lookahead.Admits rest ∧ u.lookahead.Admits rest)) ∧
    (∀ (g : Grammar) (l l' : Lookahead), l'.size = 1 →
      (∀ rest : List SymbolId, rest ≠ [] → (∀ x ∈ rest, x ∈ g.inputSymbols) →
        ((l.without g l').Admits rest ↔ l.Admits rest ∧ ¬ l'.Admits rest)) ∧
      (l.without g l').disjoint l' = true) := by
  refine ⟨fun l l' hdisjoint => not_admits_of_disjoint hdisjoint,
    fun l l' => exists_admits_of_disjoint_eq_false,
    fun t u hstate hsymbol halive halive' => ⟨Transition.conflictsWith_comm t u, ?_⟩,
    fun g l l' hsize => ⟨fun rest => admits_without_of_size hsize, ?_⟩⟩
  · exact Transition.conflictsWith_iff_admits hstate hsymbol halive halive'
  · refine disjoint_without g l fun e => ?_
    rw [e] at hsize
    cases hsize

/-- A shift that looks two symbols ahead and a reduction that looks one ahead meet at the end
marker, and so the shift is only free of conflict without it.  The last part takes the same set
from a lookahead that has no position yet. -/
theorem operations_by_input_shiftReduce :
    let g := ItemSet.mutualGrammar
    let b : SymbolId := Handle.ofNat 4
    let l : Lookahead := ⟨[{b, .endMarker}, {b}]⟩
    let l' : Lookahead := ⟨[{.endMarker}]⟩
    let t : Transition := ⟨⟨Handle.ofNat 0, 0⟩, b, .shift (Handle.ofNat 1) l⟩
    let u : Transition := ⟨⟨Handle.ofNat 0, 1⟩, b, .reduce l'⟩
    t.origin.state = u.origin.state ∧ t.symbol = u.symbol ∧ l.isDead = false ∧
      l'.isDead = false ∧ l.disjoint l' = false ∧ l'.size = 1 ∧
      (∃ rest, l.Admits rest ∧ l'.Admits rest) ∧
      t.conflictsWith u = u.conflictsWith t ∧ t.sameOutcome u = false ∧
      (∃ rest, t.lookahead.Admits rest ∧ u.lookahead.Admits rest) ∧
      (l.without g l').disjoint l' = true ∧
      (∀ rest, ¬ ((l.without g l').Admits rest ∧ l'.Admits rest)) ∧
      b ∈ g.inputSymbols ∧ (any.without g l').Admits [b] := by
  intro g b l l' t u
  obtain ⟨hapart, hcommon, hconflict, hwithout⟩ := operations_by_input
  have halive : l.isDead = false := by decide
  have halive' : l'.isDead = false := by decide
  have hmeet : l.disjoint l' = false := by decide
  have hinput : b ∈ g.inputSymbols := by decide
  obtain ⟨hmutual, hiff⟩ := hconflict t u rfl rfl halive halive'
  obtain ⟨houtcome, hboth⟩ := hiff.mp (by decide)
  have hdisjoint := (hwithout g l l' rfl).2
  have hone : ∀ x ∈ [b], x ∈ g.inputSymbols := List.forall_mem_singleton.mpr hinput
  have hother : ¬ l'.Admits [b] := by
    rw [admits_cons, SymbolSet.mem_singleton]
    rintro ⟨e, _⟩
    exact absurd e (by decide)
  have hleft := ((hwithout g any l' rfl).1 [b] (List.cons_ne_nil b []) hone).mpr
    ⟨admits_any [b], hother⟩
  exact ⟨rfl, rfl, halive, halive', hmeet, rfl, hcommon l l' halive halive' hmeet, hmutual,
    houtcome, hboth, hdisjoint, hapart _ _ hdisjoint, hinput, hleft⟩

end Lookahead
end ShiftReduce
