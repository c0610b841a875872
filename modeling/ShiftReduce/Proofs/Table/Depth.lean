/-
Action tables for lookaheads of any length.

Any automaton without conflicts has an action table that says nothing wrong, however far its
transitions look ahead and whoever put it together: what a look-up ends with is what every
transition does that admits the input (`actionTable_reads_admitted`).  It is enough that
transitions start in their own state and name items and symbols that are there.

The table may say too little.  Where transitions that look ahead differently far do the same,
no conflict keeps them apart, and a look-up that follows the longer lookahead into nested
entries ends there with nothing as soon as the input leaves it, although the shorter one
admits that input.  `actionTable_reads_iff_deepest` says which look-ups end like that:
those where a lookahead that does not admit the input fits it further than any that does.
`admitted_not_read` is an automaton where this happens.
-/
import ShiftReduce.Proofs.Table.Answers

namespace ShiftReduce

namespace Automaton

variable {g : Grammar} {a : Automaton}

/-! ## Hand-made automata -/

/-- Transitions stem from items of the state they leave, and their symbols are there. -/
structure Anchored (g : Grammar) (a : Automaton) : Prop where
  origin : ∀ (n : Nat) (s : State), a.states[n]? = some s →
    ∀ t ∈ s.transitions, t.origin.state = Handle.ofNat n
  placed : ∀ s ∈ a.states, ∀ t ∈ s.transitions, Placed g a t

instance decidablePlaced (t : Transition) : Decidable (Placed g a t) :=
  decidable_of_iff ((∃ item, a.item t.origin = .ok item) ∧ t.symbol.index < g.symbols.length ∧
      ∀ s ∈ t.lookahead.positions, ∀ x ∈ s.members, x.index < g.symbols.length)
    ⟨fun ⟨item, symbol, lookahead⟩ => ⟨item, symbol, lookahead⟩,
      fun ⟨item, symbol, lookahead⟩ => ⟨item, symbol, lookahead⟩⟩

instance decidableAnchored : Decidable (Anchored g a) :=
  decidable_of_iff ((∀ entry ∈ a.states.zipIdx, ∀ t ∈ entry.1.transitions,
      t.origin.state = Handle.ofNat entry.2) ∧
      ∀ s ∈ a.states, ∀ t ∈ s.transitions, Placed g a t)
    ⟨fun h => ⟨fun n s hs => h.1 (s, n) (List.mem_zipIdx_iff_getElem?.mpr hs), h.2⟩,
      fun h => ⟨fun entry hentry => h.origin entry.2 entry.1
        (List.mem_zipIdx_iff_getElem?.mp hentry), h.placed⟩⟩

/-- What a state with this number says in the rows of an action table on some input. -/
def lookUp (rows : List (Row Action)) (n : Nat) (input : List String) : Option Action :=
  rows[n]?.bind fun row => row.read input

namespace Anchored

variable (anchored : Anchored g a) (hcheck : a.check g = .ok ())

include anchored hcheck

/-- Look-ups in the action table, read off the transitions of the state. -/
theorem lookUp_iff (built : g.Built) {rows : List (Row Action)}
    (hrows : a.actionTable g = .ok rows) {n : Nat} {s : State} (hs : a.states[n]? = some s)
    {x : SymbolId} {rest : List SymbolId}
    (hx : x.index < g.symbols.length) (hrest : ∀ y ∈ rest, y.index < g.symbols.length)
    {action : Action} :
    lookUp rows n (g.nameOf x :: rest.map g.nameOf) = some action ↔
      ∃ t ∈ s.transitions, t.symbol = x ∧ t.lookahead.Admits rest ∧
        a.action? g t = .ok (some action) ∧
          ∀ u ∈ s.transitions, u.symbol = x → u.lookahead.reach rest ≤ t.lookahead.size := by
  have hsite := anchored.origin n s hs
  obtain ⟨hn, rfl⟩ := List.getElem?_eq_some_iff.mp hs
  have hall := mapM_eq_ok.mp hrows
  have hn' : n < rows.length := hall.length_eq ▸ hn
  rw [lookUp, List.getElem?_eq_getElem hn']
  exact read_actionRow_iff_deepest hcheck (List.getElem_mem hn) hsite built.names_nodup
    (hall.get hn hn') hx hrest

theorem action?_eq {n : Nat} {s : State} (hs : a.states[n]? = some s) {t u : Transition}
    (ht : t ∈ s.transitions) (hu : u ∈ s.transitions) (hsymbol : t.symbol = u.symbol)
    {rest : List SymbolId} (hadmits : t.lookahead.Admits rest)
    (hadmits' : u.lookahead.Admits rest) : a.action? g t = a.action? g u :=
  action?_eq_of_sameOutcome (sameOutcome_of_admits hcheck (List.mem_of_getElem? hs)
    (anchored.origin n s hs) ht hu hsymbol hadmits hadmits')

end Anchored

/-! ## What look-ups end with -/

/-- The action table of an automaton without conflicts says nothing wrong: where a look-up ends
with an action, some transition on the symbol admits the input and has this action, and so has
every transition that does anything there. -/
theorem actionTable_reads_admitted (built : g.Built) (anchored : Anchored g a)
    (hcheck : a.check g = .ok ()) :
    ∃ rows, a.actionTable g = .ok rows ∧
      ∀ (n : Nat) (s : State) (x : SymbolId) (rest : List SymbolId) (action : Action),
        a.states[n]? = some s → x.index < g.symbols.length →
        (∀ y ∈ rest, y.index < g.symbols.length) →
        lookUp rows n (g.nameOf x :: rest.map g.nameOf) = some action →
          (∃ t ∈ s.transitions, t.symbol = x ∧ t.lookahead.Admits rest ∧
            a.action? g t = .ok (some action)) ∧
          ∀ t ∈ s.transitions, t.symbol = x → t.kind ≠ .goto → t.lookahead.Admits rest →
            a.action? g t = .ok (some action) := by
  obtain ⟨rows, hrows⟩ := exists_actionTable_ok anchored.placed
  refine ⟨rows, hrows, fun n s x rest action hs hx hrest hread => ?_⟩
  obtain ⟨t, ht, hsymbol, hadmits, haction, _⟩ :=
    (anchored.lookUp_iff hcheck built hrows hs hx hrest).mp hread
  refine ⟨⟨t, ht, hsymbol, hadmits, haction⟩, fun u hu hsymbol' _ hadmits' => ?_⟩
  rw [anchored.action?_eq hcheck hs hu ht (hsymbol'.trans hsymbol.symm) hadmits' hadmits]
  exact haction

/-- The rules `S ::= a` and `S ::= a b c`. -/
def prefixed : List Bnf.Definition :=
  [⟨"S", [⟨[⟨"a", none⟩], 0⟩, ⟨[⟨"a", none⟩, ⟨"b", none⟩, ⟨"c", none⟩], 0⟩]⟩]

/-- Two states for `prefixed`, with the dot in front of `a` and behind it, and transitions of the
first. -/
def handMade (ts : List Transition) : Automaton :=
  ⟨[⟨Handle.ofNat 0, .ofList [⟨Handle.ofNat 1, 0⟩, ⟨Handle.ofNat 2, 0⟩], ts⟩,
    .make (Handle.ofNat 1) (.ofList [⟨Handle.ofNat 1, 1⟩, ⟨Handle.ofNat 2, 1⟩])]⟩

/-- A transition of `handMade` on `a`. -/
def onA (position : Nat) (move : Move) : Transition :=
  ⟨⟨Handle.ofNat 0, position⟩, Handle.ofNat 3, move⟩

/-- The second symbol behind `a` keeps a shift and a reduction apart. -/
def nested : List Transition :=
  [onA 0 (.shift (Handle.ofNat 1) ⟨[{Handle.ofNat 4}, {Handle.ofNat 5}]⟩),
    onA 0 (.reduce ⟨[{Handle.ofNat 4}, {Handle.ofNat 4}]⟩)]

/-- What is found under `a b b` in the table of `nested` is the reduction, which admits `b b`. -/
theorem actionTable_reads_admitted_nested : ∃ (g : Grammar) (rows : List (Row Action))
    (action : Action), Grammar.ofDefinitions prefixed = .ok g ∧
      Anchored g (handMade nested) ∧ (handMade nested).check g = .ok () ∧
      (handMade nested).actionTable g = .ok rows ∧ lookUp rows 0 ["a", "b", "b"] = some action ∧
      (handMade nested).action? g (onA 0 (.reduce ⟨[{Handle.ofNat 4}, {Handle.ofNat 4}]⟩)) =
        .ok (some action) := by
  obtain ⟨g, hg, h⟩ : ∃ g, Grammar.ofDefinitions prefixed = .ok g ∧
      decide (Anchored g (handMade nested) ∧ (∃ u, (handMade nested).check g = .ok u) ∧
        g.symbols.length = 6 ∧ g.nameOf (Handle.ofNat 3) = "a" ∧ g.nameOf (Handle.ofNat 4) = "b" ∧
        ((handMade nested).actionTable g).toOption.any fun rows =>
          (lookUp rows 0 ["a", "b", "b"]).isSome) = true := exists_ok_of_any (by decide +kernel)
  obtain ⟨anchored, ⟨_, hcheck⟩, hsize, ha, hb, hfound⟩ := of_decide_eq_true h
  obtain ⟨rows, hrows, hread⟩ := actionTable_reads_admitted (.ofDefinitions hg) anchored hcheck
  rw [hrows] at hfound
  obtain ⟨action, haction⟩ := Option.isSome_iff_exists.mp hfound
  have hinput : g.nameOf (Handle.ofNat 3) :: [Handle.ofNat 4, Handle.ofNat 4].map g.nameOf =
      ["a", "b", "b"] := by rw [List.map_cons, List.map_singleton, ha, hb]
  obtain ⟨_, hevery⟩ := hread 0 _ (Handle.ofNat 3) [Handle.ofNat 4, Handle.ofNat 4] action rfl
    (hsize ▸ by decide) (hsize ▸ by decide) (hinput ▸ haction)
  refine ⟨g, rows, action, hg, anchored, hcheck, hrows, haction, ?_⟩
  exact hevery _ (List.mem_cons_of_mem _ List.mem_cons_self) rfl (by decide)
    (Lookahead.admits_iff_reach.mpr rfl)

/-- The action table of an automaton without conflicts has the action of a transition wherever
that admits the input, or else nothing.  It has the action exactly if no transition on the symbol
reaches further into the input than some transition does that admits it. -/
theorem actionTable_reads_iff_deepest (built : g.Built) (anchored : Anchored g a)
    (hcheck : a.check g = .ok ()) :
    ∃ rows, a.actionTable g = .ok rows ∧
      ∀ (n : Nat) (s : State) (t : Transition) (rest : List SymbolId),
        a.states[n]? = some s → t ∈ s.transitions → t.kind ≠ .goto →
        (∀ y ∈ rest, y.index < g.symbols.length) → t.lookahead.Admits rest →
          ∃ action, a.action? g t = .ok (some action) ∧
            (lookUp rows n (g.nameOf t.symbol :: rest.map g.nameOf) = some action ∨
              lookUp rows n (g.nameOf t.symbol :: rest.map g.nameOf) = none) ∧
            (lookUp rows n (g.nameOf t.symbol :: rest.map g.nameOf) = some action ↔
              ∃ u ∈ s.transitions, u.symbol = t.symbol ∧ u.lookahead.Admits rest ∧
                ∀ w ∈ s.transitions, w.symbol = t.symbol →
                  w.lookahead.reach rest ≤ u.lookahead.size) := by
  obtain ⟨rows, hrows⟩ := exists_actionTable_ok anchored.placed
  refine ⟨rows, hrows, fun n s t rest hs ht hkind hrest hadmits => ?_⟩
  have hplaced := anchored.placed s (List.mem_of_getElem? hs) t ht
  obtain ⟨action, haction⟩ : ∃ action, a.action? g t = .ok (some action) := by
    obtain ⟨found, hfound⟩ := hplaced.exists_action
    cases found with
    | none => exact absurd (kind_of_action?_none hfound) hkind
    | some action => exact ⟨action, hfound⟩
  -- a transition that admits the input does the same as `t`
  have hsame : ∀ u ∈ s.transitions, u.symbol = t.symbol → u.lookahead.Admits rest →
      a.action? g u = .ok (some action) := fun u hu hsymbol hadmits' =>
    (anchored.action?_eq hcheck hs hu ht hsymbol hadmits' hadmits).trans haction
  refine ⟨action, haction, ?_, ?_⟩
  · cases hread : lookUp rows n (g.nameOf t.symbol :: rest.map g.nameOf) with
    | none => exact Or.inr rfl
    | some action' =>
      obtain ⟨u, hu, hsymbol, hadmits', haction', _⟩ :=
        (anchored.lookUp_iff hcheck built hrows hs hplaced.symbol hrest).mp hread
      rw [hsame u hu hsymbol hadmits'] at haction'
      cases haction'
      exact Or.inl rfl
  · rw [anchored.lookUp_iff hcheck built hrows hs hplaced.symbol hrest]
    constructor
    · rintro ⟨u, hu, hsymbol, hadmits', _, hmax⟩
      exact ⟨u, hu, hsymbol, hadmits', hmax⟩
    · rintro ⟨u, hu, hsymbol, hadmits', hmax⟩
      exact ⟨u, hu, hsymbol, hadmits', hsame u hu hsymbol hadmits', hmax⟩

/-- Two shifts to one state, one of them for any input, the other for `b c` alone. -/
def shadowed : List Transition :=
  [onA 0 (.shift (Handle.ofNat 1) .any),
    onA 1 (.shift (Handle.ofNat 1) ⟨[{Handle.ofNat 4}, {Handle.ofNat 5}]⟩)]

/-- In the table of `shadowed` the shift for any input is found under `a c b`, where the other
reaches no symbol far. -/
theorem actionTable_reads_iff_deepest_shadowed : ∃ (g : Grammar) (rows : List (Row Action))
    (action : Action), Grammar.ofDefinitions prefixed = .ok g ∧
      Anchored g (handMade shadowed) ∧ (handMade shadowed).check g = .ok () ∧
      (handMade shadowed).actionTable g = .ok rows ∧
      (handMade shadowed).action? g (onA 0 (.shift (Handle.ofNat 1) .any)) = .ok (some action) ∧
      lookUp rows 0 ["a", "c", "b"] = some action := by
  obtain ⟨g, hg, h⟩ : ∃ g, Grammar.ofDefinitions prefixed = .ok g ∧
      decide (Anchored g (handMade shadowed) ∧ (∃ u, (handMade shadowed).check g = .ok u) ∧
        g.symbols.length = 6 ∧ [Handle.ofNat 3, Handle.ofNat 5, Handle.ofNat 4].map g.nameOf =
          ["a", "c", "b"]) = true := exists_ok_of_any (by decide +kernel)
  obtain ⟨anchored, ⟨_, hcheck⟩, hsize, hinput⟩ := of_decide_eq_true h
  obtain ⟨rows, hrows, hread⟩ := actionTable_reads_iff_deepest (.ofDefinitions hg) anchored hcheck
  obtain ⟨action, haction, _, hiff⟩ := hread 0 _ (onA 0 (.shift (Handle.ofNat 1) .any))
    [Handle.ofNat 5, Handle.ofNat 4] rfl List.mem_cons_self (by decide) (hsize ▸ by decide)
    (Lookahead.admits_any _)
  refine ⟨g, rows, action, hg, anchored, hcheck, hrows, haction, ?_⟩
  rw [← hinput]
  refine hiff.mpr ⟨_, List.mem_cons_self, rfl, Lookahead.admits_any _, ?_⟩
  decide

/-- Under `a b b` the table of `shadowed` has nothing, although the shift for any input admits
that: the look-up has followed the other one into its table and finds no wildcard there. -/
theorem admitted_not_read : ∃ (g : Grammar) (rows : List (Row Action)) (action : Action),
    Grammar.ofDefinitions prefixed = .ok g ∧ Anchored g (handMade shadowed) ∧
      (handMade shadowed).check g = .ok () ∧ (handMade shadowed).actionTable g = .ok rows ∧
      onA 0 (.shift (Handle.ofNat 1) .any) ∈ shadowed ∧
      (handMade shadowed).action? g (onA 0 (.shift (Handle.ofNat 1) .any)) = .ok (some action) ∧
      (onA 0 (.shift (Handle.ofNat 1) .any)).lookahead.Admits [Handle.ofNat 4, Handle.ofNat 4] ∧
      [Handle.ofNat 3, Handle.ofNat 4, Handle.ofNat 4].map g.nameOf = ["a", "b", "b"] ∧
      lookUp rows 0 ["a", "b", "b"] = none := by
  obtain ⟨g, hg, h⟩ : ∃ g, Grammar.ofDefinitions prefixed = .ok g ∧
      decide (Anchored g (handMade shadowed) ∧ (∃ u, (handMade shadowed).check g = .ok u) ∧
        [Handle.ofNat 3, Handle.ofNat 4, Handle.ofNat 4].map g.nameOf = ["a", "b", "b"] ∧
        ((handMade shadowed).actionTable g).toOption.any fun rows =>
          (lookUp rows 0 ["a", "b", "b"]).isNone) = true := exists_ok_of_any (by decide +kernel)
  obtain ⟨anchored, ⟨_, hcheck⟩, hinput, hfound⟩ := of_decide_eq_true h
  obtain ⟨rows, hrows, hnone⟩ := exists_ok_of_any hfound
  exact ⟨g, rows, .shift 1, hg, anchored, hcheck, hrows, List.mem_cons_self, rfl,
    Lookahead.admits_any _, hinput, Option.isNone_iff_eq_none.mp hnone⟩

end Automaton
end ShiftReduce
