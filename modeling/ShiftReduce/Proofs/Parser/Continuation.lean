/-
What has been read can be continued.

Lookaheads are made from follow sets, and a lookahead that decides nothing is taken
away, so on input that is no sentence the parser may make reductions that lead
nowhere.  It still never reads a symbol that no sentence has there:
`exists_continuation`.

The reason is not in the tables' lookaheads but in the stack.  Its states are those of
a path, so some item is viable after the symbols of that path; the rules that lead to
the item make these symbols the beginning of a sentential form; and what has been read
is derived from them.
-/
import ShiftReduce.Proofs.Automaton.ViablePrefix
import ShiftReduce.Proofs.Parser.Soundness

namespace ShiftReduce

/-- A stack is a path from the first state. -/
theorem Automaton.StackPath.path {a : Automaton} {q : Nat} {below : List Nat}
    {xs : List SymbolId} (h : a.StackPath (q :: below) xs) : a.Path 0 xs q := by
  generalize hstack : q :: below = stack at h
  induction h generalizing q below with
  | base =>
    cases hstack
    exact .nil
  | push _ hedge ih =>
    cases hstack
    exact .snoc (ih rfl) hedge

namespace Tables

variable {g : Grammar} (wf : g.WellFormed) {a : Automaton} (hc : Automaton.Canonical g a)
  {w : List SymbolId} (hw : ∀ x ∈ w, x ∈ g.terminals) {c : Configuration}

include wf hc hw

/-- While the parser runs, what it has read is the beginning of the sentence, the end
marker is ahead, and a sentential form begins with what has been read. -/
theorem Consistent.continuation (h : Consistent g a w c) :
    ∃ (start : SymbolId) (read left rest : List SymbolId), g.start? = some start ∧
      w = read ++ left ∧ c.input = (left ++ [SymbolId.endMarker]).map g.nameOf ∧
        g.Derives [start] (read ++ rest) := by
  obtain ⟨f, left, hvalid, hstack, hinput, hread, _⟩ := h
  have hterminals : ∀ x ∈ f.yield, g.isTerminal x = true := by
    intro x hx
    have hmem : x ∈ w ++ [SymbolId.endMarker] := hread ▸ List.mem_append_left left hx
    rcases List.mem_append.mp hmem with hmem | hmem
    · exact (wf.mem_terminals.mp (hw x hmem)).1
    · rw [List.mem_singleton.mp hmem]
      exact wf.isTerminal_endMarker
  -- the roots of the forest begin a sentential form, and derive what was read
  obtain ⟨start, rest, hstart, hroots⟩ : ∃ (start : SymbolId) (rest : List SymbolId),
      g.start? = some start ∧ g.Derives [start] (f.roots g ++ rest) := by
    cases hs : c.stack with
    | nil =>
      rw [hs] at hstack
      cases hstack
    | cons q below =>
      rw [hs] at hstack
      obtain ⟨item, hitem⟩ := hc.exists_viable_of_path wf hstack.path
      exact hitem.derives wf
  have hyield : g.Derives (f.roots g ++ rest) (f.yield ++ rest) :=
    (Forest.rightmost hvalid hterminals).derives.append [] rest
  have hderives : g.Derives [start] (f.yield ++ rest) := hroots.trans hyield
  -- so the end marker was not read
  have hend : SymbolId.endMarker ∉ f.yield := by
    intro hmem
    refine hderives.endMarker_not_mem wf ?_ (List.mem_append_left rest hmem)
    intro hstart'
    obtain ⟨start', hstart'', _, hn⟩ := wf.exists_start
    rw [hstart] at hstart''
    cases hstart''
    have hterminal := wf.isTerminal_endMarker
    rw [List.mem_singleton.mp hstart', Grammar.isTerminal_of_isNonterminal hn] at hterminal
    cases hterminal
  rcases List.append_eq_append_iff.mp hread with ⟨between, hw', hleft⟩ | ⟨between, hyield', hleft⟩
  · exact ⟨start, f.yield, between, rest, hstart, hw', by rw [hinput, hleft], hderives⟩
  · cases between with
    | nil =>
      have hw' : w = f.yield ++ [] := by
        rw [hyield', List.append_nil, List.append_nil]
      have hleft : [SymbolId.endMarker] = left := hleft
      exact ⟨start, f.yield, [], rest, hstart, hw', by rw [hinput, ← hleft]; rfl, hderives⟩
    | cons y between =>
      obtain ⟨rfl, _⟩ := List.cons.inj hleft
      rw [hyield'] at hend
      exact absurd (List.mem_append_right w List.mem_cons_self) hend

end Tables

namespace Grammar

/-- Whatever the parser has read on some input, the grammar derives a sentential form
that begins with it. -/
theorem exists_continuation {g : Grammar} (built : g.Built) (fits : g.Fits) {method : Method}
    {tables : Tables} (h : g.tables method = .ok tables) {w : List SymbolId}
    (hw : ∀ x ∈ w, x ∈ g.terminals) {c : Configuration}
    (hreach : tables.Reaches (Tables.start (w.map g.nameOf ++ [Symbol.endName])) c) :
    ∃ (start : SymbolId) (read left rest : List SymbolId), g.start? = some start ∧
      w = read ++ left ∧ c.input = left.map g.nameOf ++ [Symbol.endName] ∧
        g.Derives [start] (read ++ rest) := by
  have wf := built.wellFormed fits.symbols fits.rules
  have hc := wf.canonical fits.states
  obtain ⟨b, hsharpens, hreads, _⟩ := wf.exists_reads fits.states h
  rw [← wf.nameOf_endMarker, ← List.map_singleton, ← List.map_append] at hreach
  have hconsistent := Tables.Consistent.of_reaches wf hc hsharpens hreads hw hreach
  obtain ⟨start, read, left, rest, hstart, hsplit, hinput, hderives⟩ :=
    hconsistent.continuation wf hc hw
  refine ⟨start, read, left, rest, hstart, hsplit, ?_, hderives⟩
  rw [hinput, List.map_append, List.map_singleton, wf.nameOf_endMarker]

/-- The symbols `if x if x`, which no statement of `branching` begins with. -/
def broken : List SymbolId := [3, 5, 3, 5].map Handle.ofNat

/-- No statement begins with `if x if`, and no more than `if x` is read of `if x if x`. -/
theorem exists_continuation_branching : ∃ (g : Grammar) (tables : Tables) (c : Configuration)
    (rest : List SymbolId), ofDefinitions branching = .ok g ∧ g.tables .refined = .ok tables ∧
      tables.Reaches (Tables.start ["if", "x", "if", "x", "$end"]) c ∧
        c.input = ["if", "x", "$end"] ∧ tables.step? c = none ∧
          g.Derives [Handle.ofNat 2] (Handle.ofNat 3 :: Handle.ofNat 5 :: rest) := by
  obtain ⟨g, hg, h⟩ : ∃ g, ofDefinitions branching = .ok g ∧
      decide (g.Fits ∧ g.start? = some (Handle.ofNat 2) ∧
        (∀ x ∈ broken, x ∈ g.terminals) ∧
          broken.map g.nameOf = ["if", "x", "if", "x"] ∧
            ((g.tables .refined).toOption.any fun tables =>
              (tables.after? 2 (Tables.start ["if", "x", "if", "x", "$end"])).any fun c =>
                c.input == ["if", "x", "$end"] && (tables.step? c).isNone) = true) = true :=
    exists_ok_of_any (by decide +kernel)
  obtain ⟨fits, hstart, hterminals, hnames, htables⟩ := of_decide_eq_true h
  obtain ⟨tables, htables, hrun⟩ := exists_ok_of_any htables
  obtain ⟨c, hafter, hc⟩ := (Option.any_eq_true _ _).mp hrun
  obtain ⟨hinput, hstuck⟩ := Bool.and_eq_true_iff.mp hc
  have hinput := beq_iff_eq.mp hinput
  have hreach := Tables.reaches_of_after? hafter
  have hreach' : tables.Reaches (Tables.start (broken.map g.nameOf ++ [Symbol.endName])) c := by
    rw [hnames]
    exact hreach
  obtain ⟨start, read, left, rest, hstart', hsplit, hleft, hderives⟩ :=
    exists_continuation (.ofDefinitions hg) fits htables hterminals hreach'
  rw [hstart] at hstart'
  cases hstart'
  -- two symbols are left, so the first two were read
  have hlength : left.length = 2 := by
    have e := congrArg List.length (hleft.symm.trans hinput)
    simpa using e
  have hread : read.length = 2 := by
    have e := congrArg List.length hsplit
    rw [List.length_append, hlength] at e
    have : broken.length = 4 := rfl
    omega
  have hsplit : [Handle.ofNat 3, Handle.ofNat 5] ++ [Handle.ofNat 3, Handle.ofNat 5] =
      read ++ left := hsplit
  obtain ⟨rfl, _⟩ := List.append_inj hsplit hread.symm
  exact ⟨g, tables, c, rest, hg, htables, hreach, hinput, Option.isNone_iff_eq_none.mp hstuck,
    hderives⟩

end Grammar
end ShiftReduce
