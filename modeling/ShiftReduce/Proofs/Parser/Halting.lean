/-
When the parser comes to an end.

A run goes on for ever only by reducing, since each symbol is read once.  Without a
recursion that a parser can go round, what it has on its stack for a given input has so many
nodes below it and no more, so it cannot go on reducing: `halts_of_bounded` and
`Item.Viable.length_postorder_le`.

There is no such recursion if every symbol derives input and the parser accepts all that the
grammar derives.  Both are needed.  A rule that puts something empty before its own left side
is never seen through if nothing else ends the recursion, and neither if a priority takes
away the shift that would end it: `not_halts_endless`.
-/
import ShiftReduce.Proofs.Grammar.Size
import ShiftReduce.Proofs.Parser.Continuation
import ShiftReduce.Proofs.Parser.Pumping

namespace ShiftReduce
namespace Tables

/-- The parser comes to an end from here: it accepts, or it is stuck. -/
def Halts (t : Tables) (c : Configuration) : Prop := ∃ d, t.Reaches c d ∧ t.step? d = none

variable {t : Tables} {c d : Configuration}

/-- What comes to an end does so from wherever it gets to. -/
theorem Halts.of_reaches (h : t.Halts c) (hd : t.Reaches c d) : t.Halts d := by
  obtain ⟨e, he, hend⟩ := h
  rcases Reaches.total hd he with hde | hed
  · exact ⟨e, hde, hend⟩
  · exact ⟨d, .refl, Reaches.eq_of_step?_none hed hend ▸ hend⟩

/-- What always makes another step never comes to an end. -/
theorem not_halts_of_invariant {P : Configuration → Prop}
    (hstep : ∀ c, P c → ∃ d, t.step? c = some d ∧ P d) (hc : P c) : ¬ t.Halts c := by
  have hinvariant : ∀ d, t.Reaches c d → P d := by
    intro d hd
    induction hd with
    | refl => exact hc
    | tail _ h ih =>
      obtain ⟨e, he, hP⟩ := hstep _ ih
      rw [h] at he
      cases he
      exact hP
  rintro ⟨d, hd, hend⟩
  obtain ⟨e, he, _⟩ := hstep d (hinvariant d hd)
  rw [hend] at he
  cases he

/-- The top state reduces by an empty rule, and goes to itself by the left side. -/
def circles (t : Tables) (c : Configuration) : Bool :=
  match c.stack with
  | [] => false
  | state :: _ =>
      match t.decide? state c.input with
      | some (.reduce _ left []) => t.goto? state left == some state
      | _ => false

theorem step?_of_circles (h : t.circles c = true) :
    ∃ d, t.step? c = some d ∧ t.circles d = true := by
  obtain ⟨stack, input, reduced⟩ := c
  unfold circles at h
  split at h
  · cases h
  · rename_i state below hstack
    split at h
    · rename_i rule left hdecide
      have hgoto := beq_iff_eq.mp h
      have hstack : stack = state :: below := hstack
      subst hstack
      refine ⟨⟨state :: state :: below, input, rule :: reduced⟩, ?_, ?_⟩
      · rw [step?]
        simp only [hdecide, List.length_nil, List.drop_zero, hgoto, Option.map_some]
      · rw [circles]
        simp only [hdecide]
        exact h
    · cases h

/-- A parser that gets into a circle never comes to an end. -/
theorem not_halts_of_circles {steps : Nat} (h : (t.after? steps c).any t.circles = true) :
    ¬ t.Halts c := by
  obtain ⟨d, hd, hcircles⟩ := (Option.any_eq_true _ _).mp h
  have hforever : ¬ t.Halts d :=
    not_halts_of_invariant (P := fun c => t.circles c = true) (fun _ => step?_of_circles) hcircles
  exact fun hhalts => hforever (hhalts.of_reaches (reaches_of_after? hd))

/-- If there are so many reductions and no more, the parser comes to an end. -/
theorem halts_of_bounded {bound : Nat} (h : ∀ d, t.Reaches c d → d.reduced.length ≤ bound) :
    t.Halts c := by
  -- a step makes a reduction, or it leaves less to be read
  induction hn : bound - c.reduced.length + c.input.length using Nat.strong_induction_on
    generalizing c with
  | h n ih =>
    cases hstep : t.step? c with
    | none => exact ⟨c, .refl, hstep⟩
    | some d =>
      have hd : ∀ e, t.Reaches d e → e.reduced.length ≤ bound := fun e he =>
        h e (.head hstep he)
      suffices hless : bound - d.reduced.length + d.input.length < n by
        obtain ⟨e, he, hend⟩ := ih _ hless hd rfl
        exact ⟨e, .head hstep he, hend⟩
      have hbound := hd d .refl
      obtain ⟨state, below, _, hcases⟩ := step?_eq_some hstep
      rcases hcases with ⟨next, hdecide, rfl⟩ | ⟨_, _, _, _, _, _, _, _, _, rfl⟩
      · have hread : c.input ≠ [] := by
          intro hnil
          rw [hnil] at hdecide
          cases hdecide
        have hlength := List.length_pos_iff.mpr hread
        simp only [List.length_tail]
        omega
      · have hbound : c.reduced.length + 1 ≤ bound := hbound
        simp only [List.length_cons]
        omega

variable {g : Grammar} (wf : g.WellFormed) {a b : Automaton} {tables : Tables}
  (hc : Automaton.Canonical g a) (hsharpens : b.Sharpens a) (hreads : b.Reads g tables)

include wf hc

/-- If nothing loops, so much input allows so many reductions. -/
theorem Consistent.length_reduced_le (hloops : ∀ x, g.Reachable x → ¬ g.Loops x)
    {w : List SymbolId} {c : Configuration} (h : Consistent g a w c) :
    c.reduced.length ≤ g.capacity (w.length + 1) := by
  obtain ⟨f, left, hvalid, hstack, _, hread, hreduced⟩ := h
  cases hs : c.stack with
  | nil =>
    rw [hs] at hstack
    cases hstack
  | cons q below =>
    rw [hs] at hstack
    obtain ⟨item, hitem⟩ := hc.exists_viable_of_path wf hstack.path
    have hyield : f.yield.length ≤ w.length + 1 := by
      have hlength := congrArg List.length hread
      rw [List.length_append, List.length_append, List.length_singleton] at hlength
      omega
    rw [hreduced, List.length_map, List.length_reverse]
    exact hitem.length_postorder_le wf hloops hvalid hyield

include hsharpens hreads

theorem halts_of_not_loops (hloops : ∀ x, g.Reachable x → ¬ g.Loops x) {w : List SymbolId}
    (hw : ∀ x ∈ w, x ∈ g.terminals) :
    tables.Halts (start ((w ++ [SymbolId.endMarker]).map g.nameOf)) :=
  halts_of_bounded fun _ hd => Consistent.length_reduced_le wf hc hloops
    (Consistent.of_reaches wf hc hsharpens hreads hw hd)

end Tables

namespace Grammar

/-- On every input the parser comes to an end, if no nonterminal of a sentential form loops.
None does if every symbol of a sentential form derives input and the tables were made
without priorities. -/
theorem halts {g : Grammar} (built : g.Built) (fits : g.Fits) {method : Method} {tables : Tables}
    (h : g.tables method = .ok tables)
    (hrecursion : (∀ x, g.Reachable x → ¬ g.Loops x) ∨
      ((∀ x, g.Reachable x → g.Productive x) ∧ (method = .plain ∨ g.EqualPriorities)))
    {w : List SymbolId} (hw : ∀ x ∈ w, x ∈ g.terminals) :
    tables.Halts (Tables.start (w.map g.nameOf ++ [Symbol.endName])) := by
  have wf := built.wellFormed fits.symbols fits.rules
  have hc := wf.canonical fits.states
  obtain ⟨b, hsharpens, hreads, hserves⟩ := wf.exists_reads fits.states h
  have hloops : ∀ x, g.Reachable x → ¬ g.Loops x := by
    rcases hrecursion with hloops | ⟨hproductive, hequal⟩
    · exact hloops
    · exact fun x => Tables.not_loops wf hc hsharpens hreads (hserves hequal) hproductive
  rw [← wf.nameOf_endMarker, ← List.map_singleton, ← List.map_append]
  exact Tables.halts_of_not_loops wf hc hsharpens hreads hloops hw

/-- In `itemList` every symbol of a sentential form derives input. -/
theorem halts_itemList : ∃ (g : Grammar) (tables : Tables), ofDefinitions itemList = .ok g ∧
    g.Fits ∧ g.tables .refined = .ok tables ∧ (∀ x ∈ twoItems.yield, x ∈ g.terminals) ∧
      ((∀ x, g.Reachable x → g.Productive x) ∧ g.EqualPriorities) ∧
        tables.Halts (Tables.start (twoItems.yield.map g.nameOf ++ [Symbol.endName])) := by
  obtain ⟨g, tables, hg, fits, hequal, htables, hterminals, _⟩ := tables_itemList
  obtain ⟨g', hg', h⟩ : ∃ g, ofDefinitions itemList = .ok g ∧
      decide (g.start?.all (fun x => g.Shallow x) = true ∧
        ∀ rule ∈ g.rules, ∀ y ∈ rule.right, g.Shallow y) = true :=
    exists_ok_of_any (by decide +kernel)
  obtain rfl : g' = g := Except.ok.inj (hg'.symm.trans hg)
  obtain ⟨hstart, hright⟩ := of_decide_eq_true h
  have built : g'.Built := .ofDefinitions hg
  have hproductive : ∀ x, g'.Reachable x → g'.Productive x := fun x hx =>
    hx.productive (built.wellFormed fits.symbols fits.rules) hstart hright
  exact ⟨g', tables, hg, fits, htables, hterminals, ⟨hproductive, hequal⟩,
    halts built fits htables (Or.inr ⟨hproductive, Or.inr hequal⟩) hterminals⟩

/-- A recursion behind a mark for which nothing is written, and no way out. -/
def endless : List Bnf.Definition :=
  [⟨"list", [⟨[⟨"mark", none⟩, ⟨"list", none⟩, ⟨"x", none⟩], 0⟩]⟩, ⟨"mark", [⟨[], 0⟩]⟩]

/-- The same, with marks in other places where something comes behind them. -/
def endlessText : List Bnf.Definition :=
  ⟨"text", [⟨[⟨"c", none⟩, ⟨"mark", none⟩, ⟨"t", none⟩], 0⟩, ⟨[⟨"list", none⟩], 0⟩]⟩ :: endless

/-- A way out of the recursion, and a mark that goes before it by its priority. -/
def starved : List Bnf.Definition :=
  [⟨"list", [⟨[⟨"mark", none⟩, ⟨"list", none⟩, ⟨"x", none⟩], 0⟩, ⟨[⟨"y", none⟩], 0⟩]⟩,
    ⟨"mark", [⟨[], 1⟩]⟩]

/-- A grammar with tables by which the parser, given this symbol, never comes to an end. -/
structure Endless (definitions : List Bnf.Definition) (method : Method) (name : String)
    (g : Grammar) : Prop where
  ofDefinitions_eq : ofDefinitions definitions = .ok g
  fits : g.Fits
  exists_terminal : ∃ x ∈ g.terminals, g.nameOf x = name
  runs_forever : ∃ tables : Tables, g.tables method = .ok tables ∧
    ¬ tables.Halts (Tables.start [name, Symbol.endName])

theorem exists_endless {definitions : List Bnf.Definition} {method : Method} {name : String}
    {p : Grammar → Bool} (h : ((ofDefinitions definitions).toOption.any fun g =>
      decide (g.Fits ∧ (∃ x ∈ g.terminals, g.nameOf x = name) ∧ p g = true ∧
        ((g.tables method).toOption.any fun tables =>
          (tables.after? 1 (Tables.start [name, Symbol.endName])).any tables.circles) = true)) =
        true) : ∃ g, Endless definitions method name g ∧ p g = true := by
  obtain ⟨g, hg, h⟩ := exists_ok_of_any h
  obtain ⟨fits, hname, hp, htables⟩ := of_decide_eq_true h
  obtain ⟨tables, htables, hcircles⟩ := exists_ok_of_any htables
  exact ⟨g, ⟨hg, fits, hname, tables, htables, Tables.not_halts_of_circles hcircles⟩, hp⟩

/-- Where a symbol derives no input, and where priorities are at work, there are grammars with
tables by which the parser reduces for ever. -/
theorem not_halts_endless : (∃ g, Endless endless .plain "x" g) ∧
    (∃ g, Endless endlessText .refined "t" g ∧ g.EqualPriorities) ∧
      ∃ g, Endless starved .refined "y" g ∧ ∀ x, g.Reachable x → g.Productive x := by
  refine ⟨?_, ?_, ?_⟩
  · obtain ⟨g, hg, _⟩ : ∃ g, Endless endless .plain "x" g ∧ true = true :=
      exists_endless (by decide +kernel)
    exact ⟨g, hg⟩
  · obtain ⟨g, hg, hequal⟩ : ∃ g, Endless endlessText .refined "t" g ∧
        decide (∀ rule ∈ g.rules.tail, rule.priority = 0) = true :=
      exists_endless (by decide +kernel)
    exact ⟨g, hg, 0, of_decide_eq_true hequal⟩
  · obtain ⟨g, hg, hshallow⟩ : ∃ g, Endless starved .refined "y" g ∧
        decide (g.start?.all (fun x => g.Shallow x) = true ∧
          ∀ rule ∈ g.rules, ∀ y ∈ rule.right, g.Shallow y) = true :=
      exists_endless (by decide +kernel)
    obtain ⟨hstart, hright⟩ := of_decide_eq_true hshallow
    have wf := (Built.ofDefinitions hg.ofDefinitions_eq).wellFormed hg.fits.symbols hg.fits.rules
    exact ⟨g, hg, fun x hx => hx.productive wf hstart hright⟩

end Grammar
end ShiftReduce
