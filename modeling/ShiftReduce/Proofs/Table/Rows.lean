/-
Which rows there are in tables, and which entries in a row.

A row holds its names in ascending order, so it is known by what is found in it:
`Row.ext`.  An entry stands under a name only if some transition of the state is on the
symbol with that name, and it depends on the input behind the symbol only if the lookahead
of such a transition does.  So where no transition on a symbol looks ahead, the entry is
the action itself, which is `Reads.action?_iff`.
-/
import ShiftReduce.Proofs.Table.Generated

namespace ShiftReduce
namespace Row

variable {α : Type}

/-- The names of a row ascend. -/
def Ascending (row : Row α) : Prop := row.Pairwise fun e f => e.1 < f.1

theorem mem_put {name : String} {entry : α} {row : Row α} {e : String × α}
    (h : e ∈ row.put name entry) : e = (name, entry) ∨ e ∈ row := by
  induction row with
  | nil => exact Or.inl (List.mem_singleton.mp h)
  | cons head rest ih =>
    obtain ⟨other, old⟩ := head
    rw [put] at h
    split at h
    · exact List.mem_cons.mp h
    · split at h
      · rcases List.mem_cons.mp h with rfl | h
        · exact Or.inr List.mem_cons_self
        · exact (ih h).imp_right (List.mem_cons_of_mem _)
      · exact (List.mem_cons.mp h).imp_right (List.mem_cons_of_mem _)

theorem Ascending.put {row : Row α} (h : row.Ascending) (name : String) (entry : α) :
    (row.put name entry).Ascending := by
  induction row with
  | nil => exact List.pairwise_singleton _ _
  | cons head rest ih =>
    obtain ⟨other, old⟩ := head
    obtain ⟨hhead, hrest⟩ := List.pairwise_cons.mp h
    rw [Row.put]
    split
    · rename_i hlt
      refine List.pairwise_cons.mpr ⟨fun e he => ?_, h⟩
      rcases List.mem_cons.mp he with rfl | he
      · exact hlt
      · exact String.lt_trans hlt (hhead e he)
    · split
      · rename_i hgt
        refine List.pairwise_cons.mpr ⟨fun e he => ?_, ih hrest⟩
        rcases mem_put he with rfl | he
        · exact hgt
        · exact hhead e he
      · rename_i hlt hgt
        have hname : name = other := String.le_antisymm hgt hlt
        rw [hname]
        exact List.pairwise_cons.mpr ⟨hhead, hrest⟩

theorem find?_eq_none_of_lt {row : Row α} {name : String} (h : ∀ e ∈ row, name < e.1) :
    row.find? name = none := by
  refine List.lookup_eq_none_iff.mpr fun e he => ?_
  have hne : name ≠ e.1 := fun hname => String.lt_irrefl name (hname ▸ h e he)
  rw [bne_iff_ne]
  exact hne

theorem find?_cons_self (name : String) (entry : α) (rest : Row α) :
    find? ((name, entry) :: rest) name = some entry := List.lookup_cons_self

theorem find?_cons_of_ne {name other : String} (h : other ≠ name) (entry : α) (rest : Row α) :
    find? ((name, entry) :: rest) other = rest.find? other := by
  rw [find?, List.lookup_cons, beq_eq_false_iff_ne.mpr h]
  rfl

/-- The first name of a row is the least one under which something is found. -/
theorem not_lt_head {head : String × α} {rest row : Row α} (h : Ascending (head :: rest))
    (hfind : ∀ name, find? (head :: rest) name = row.find? name) {e : String × α}
    {more : Row α} (hrow : row = e :: more) : ¬e.1 < head.1 := by
  intro hlt
  have hnone : find? (head :: rest) e.1 = none := by
    refine find?_eq_none_of_lt fun f hf => ?_
    rcases List.mem_cons.mp hf with rfl | hf
    · exact hlt
    · exact String.lt_trans hlt ((List.pairwise_cons.mp h).1 f hf)
  rw [hfind, hrow, find?_cons_self] at hnone
  cases hnone

/-- Rows are the same if the same is found in them. -/
theorem ext {row row' : Row α} (h : row.Ascending) (h' : row'.Ascending)
    (hfind : ∀ name, row.find? name = row'.find? name) : row = row' := by
  induction row generalizing row' with
  | nil =>
    cases row' with
    | nil => rfl
    | cons e more =>
      have hfound := hfind e.1
      rw [find?_cons_self] at hfound
      cases hfound
  | cons head rest ih =>
    cases row' with
    | nil =>
      have hfound := hfind head.1
      rw [find?_cons_self] at hfound
      cases hfound
    | cons e more =>
      have hname : head.1 = e.1 := by
        have hle := not_lt_head h hfind rfl
        have hge := not_lt_head h' (fun name => (hfind name).symm) rfl
        exact String.le_antisymm hle hge
      obtain ⟨name, entry⟩ := head
      obtain ⟨name', entry'⟩ := e
      obtain rfl : name = name' := hname
      have hentry := hfind name
      rw [find?_cons_self, find?_cons_self] at hentry
      cases hentry
      obtain ⟨hhead, hrest⟩ := List.pairwise_cons.mp h
      obtain ⟨hhead', hrest'⟩ := List.pairwise_cons.mp h'
      rw [ih hrest hrest' fun other => ?_]
      by_cases hother : other = name
      · rw [hother, find?_eq_none_of_lt hhead, find?_eq_none_of_lt hhead']
      · have hfound := hfind other
        rw [find?_cons_of_ne hother, find?_cons_of_ne hother] at hfound
        exact hfound

/-- In a row each name stands once. -/
theorem Ascending.find?_eq_some_iff {row : Row α} (h : row.Ascending) {name : String} {entry : α} :
    row.find? name = some entry ↔ (name, entry) ∈ row := by
  induction row with
  | nil =>
    refine ⟨fun hfound => ?_, fun hmem => absurd hmem List.not_mem_nil⟩
    cases hfound
  | cons head rest ih =>
    obtain ⟨first, found⟩ := head
    obtain ⟨hhead, hrest⟩ := List.pairwise_cons.mp h
    rw [List.mem_cons, Prod.mk.injEq]
    by_cases hname : name = first
    · subst hname
      have hnot : (name, entry) ∉ rest := fun hmem => String.lt_irrefl name (hhead _ hmem)
      rw [find?_cons_self, Option.some.injEq, eq_comm]
      exact ⟨fun he => Or.inl ⟨rfl, he⟩, fun he => (he.resolve_right hnot).2⟩
    · rw [find?_cons_of_ne hname, ih hrest]
      exact (or_iff_right fun he => hname he.1).symm

theorem Ascending.find?_filter {row : Row α} (h : row.Ascending) {p : String × α → Bool}
    {name : String} {entry : α} :
    find? (row.filter p) name = some entry ↔
      row.find? name = some entry ∧ p (name, entry) = true := by
  rw [Ascending.find?_eq_some_iff (h.filter p), h.find?_eq_some_iff, List.mem_filter]

/-- Lists of rows are the same if the same is found at the same places. -/
theorem ext_rows {rows rows' : List (Row α)} (hlength : rows.length = rows'.length)
    (h : ∀ row ∈ rows, row.Ascending) (h' : ∀ row ∈ rows', row.Ascending)
    (hfind : ∀ (n : Nat) (row row' : Row α) (name : String) (entry : α), rows[n]? = some row →
      rows'[n]? = some row' → (row.find? name = some entry ↔ row'.find? name = some entry)) :
    rows = rows' := by
  refine List.ext_getElem hlength fun n hn hn' => ?_
  refine ext (h _ (List.getElem_mem hn)) (h' _ (List.getElem_mem hn')) fun name => ?_
  refine Option.ext fun entry => ?_
  exact hfind n _ _ name entry (List.getElem?_eq_getElem hn) (List.getElem?_eq_getElem hn')

end Row

theorem Action.ascending_insert {row : Row Action} (h : row.Ascending) (action : Action)
    (positions : List (List String)) (column : String) :
    (action.insert positions column row).Ascending := by
  cases positions with
  | nil =>
    show (action.insertPlain column row).Ascending
    unfold insertPlain
    split
    · exact h.put column action
    · exact h.put column _
    · exact h
  | cons names rest => exact h.put column _

namespace Automaton

variable {g : Grammar} {a : Automaton}

/-! ## The rows of a state -/

theorem ascending_actionRow {s : State} {row : Row Action} (h : a.actionRow g s = .ok row) :
    row.Ascending := by
  refine foldlM_induction Row.Ascending (fun t _ row row' hrow hstep => ?_) List.Pairwise.nil h
  obtain ⟨found, _, hstep⟩ := bind_eq_ok.mp hstep
  cases found with
  | none =>
    cases hstep
    exact hrow
  | some action =>
    obtain ⟨column, _, hstep⟩ := bind_eq_ok.mp hstep
    obtain ⟨positions, _, hstep⟩ := bind_eq_ok.mp hstep
    cases hstep
    exact Action.ascending_insert hrow action positions column

theorem ascending_gotoRow {ts : List Transition} {row : Row Nat}
    (h : ts.foldlM (addGoto g) [] = .ok row) : row.Ascending := by
  refine foldlM_induction Row.Ascending (fun t _ row row' hrow hstep => ?_) List.Pairwise.nil h
  rcases addGoto_eq_ok hstep with ⟨target, name, _, _, rfl⟩ | ⟨_, rfl⟩
  · exact hrow.put name target.index
  · exact hrow

/-- An entry stands under a name because of a transition on the symbol with that name, and
one that is not plain because of a transition that looks ahead. -/
def Justified (g : Grammar) (a : Automaton) (ts : List Transition) (row : Row Action) : Prop :=
  ∀ (column : String) (entry : Action), row.find? column = some entry →
    ∃ t ∈ ts, (∃ action, a.action? g t = .ok (some action)) ∧ g.name? t.symbol = some column ∧
      (entry.isPlain = false → t.lookahead ≠ .any)

theorem Justified.insert {ts : List Transition} {row : Row Action} (h : Justified g a ts row)
    {t : Transition} (ht : t ∈ ts) {action : Action} (haction : a.action? g t = .ok (some action))
    {column : String} (hcolumn : g.name? t.symbol = some column) {positions : List (List String)}
    (hpositions : t.lookahead.columns? g = some positions) :
    Justified g a ts (action.insert positions column row) := by
  intro other entry hentry
  by_cases hother : other = column
  · subst hother
    cases positions with
    | nil =>
      change (action.insertPlain other row).find? other = some entry at hentry
      unfold Action.insertPlain at hentry
      split at hentry
      · rw [Row.find?_put_self] at hentry
        cases hentry
        refine ⟨t, ht, ⟨action, haction⟩, hcolumn, fun hplain => ?_⟩
        rw [isPlain_of_action? haction] at hplain
        cases hplain
      · -- the wildcard joins a table that some transition before called for
        rename_i table hfound
        rw [Row.find?_put_self] at hentry
        cases hentry
        obtain ⟨u, hu, hputs, hname, hlook⟩ := h other _ hfound
        exact ⟨u, hu, hputs, hname, fun _ => hlook rfl⟩
      · exact h other entry hentry
    | cons names rest =>
      refine ⟨t, ht, ⟨action, haction⟩, hcolumn, fun _ hany => ?_⟩
      rw [hany] at hpositions
      cases hpositions
  · rw [Action.find?_insert_of_ne hother] at hentry
    exact h other entry hentry

theorem justified_actionRow {s : State} {row : Row Action} (h : a.actionRow g s = .ok row) :
    Justified g a (actionOrder s.transitions) row := by
  refine foldlM_induction (Justified g a (actionOrder s.transitions))
    (fun t ht row row' hrow hstep => ?_) (fun column entry hentry => ?_) h
  · obtain ⟨found, hfound, hstep⟩ := bind_eq_ok.mp hstep
    cases found with
    | none =>
      cases hstep
      exact hrow
    | some action =>
      obtain ⟨column, hcolumn, hstep⟩ := bind_eq_ok.mp hstep
      obtain ⟨positions, hpositions, hstep⟩ := bind_eq_ok.mp hstep
      cases hstep
      exact hrow.insert ht hfound (Failure.orForeign_eq_ok.mp hcolumn)
        (Failure.orForeign_eq_ok.mp hpositions)
  · cases hentry

/-! ## The rows of tables -/

/-- Each state has its two rows in the tables. -/
theorem exists_rows {tables : Tables} (h : a.tables g = .ok tables) {n : Nat} {s : State}
    (hs : a.states[n]? = some s) : ∃ (actions : Row Action) (gotos : Row Nat),
      tables.action[n]? = some actions ∧ a.actionRow g s = .ok actions ∧
        tables.goto[n]? = some gotos ∧ s.transitions.foldlM (addGoto g) [] = .ok gotos := by
  obtain ⟨action, haction, h⟩ := bind_eq_ok.mp h
  obtain ⟨goto, hgoto, h⟩ := bind_eq_ok.mp h
  obtain ⟨reductions, _, h⟩ := bind_eq_ok.mp h
  cases h
  have haction := mapM_eq_ok.mp haction
  have hgoto := mapM_eq_ok.mp hgoto
  obtain ⟨hn, rfl⟩ := List.getElem?_eq_some_iff.mp hs
  have hn₁ : n < action.length := haction.length_eq ▸ hn
  have hn₂ : n < goto.length := hgoto.length_eq ▸ hn
  exact ⟨action[n], goto[n], List.getElem?_eq_getElem hn₁, haction.get hn hn₁,
    List.getElem?_eq_getElem hn₂, hgoto.get hn hn₂⟩

/-- An entry is found only under the name of a symbol that some transition is on. -/
theorem exists_transition_of_action? {tables : Tables} (h : a.tables g = .ok tables) {n : Nat}
    {s : State} (hs : a.states[n]? = some s) {name : String} {entry : Action}
    (hentry : tables.action? n name = some entry) :
    ∃ t ∈ s.transitions, (∃ action, a.action? g t = .ok (some action)) ∧
      g.name? t.symbol = some name ∧ (entry.isPlain = false → t.lookahead ≠ .any) := by
  obtain ⟨row, _, hrow, hactions, _⟩ := exists_rows h hs
  rw [Tables.action?, hrow] at hentry
  obtain ⟨t, ht, hrest⟩ := justified_actionRow hactions name entry hentry
  exact ⟨t, (mem_actionOrder.mp ht).1, hrest⟩

theorem exists_transition_of_goto? {tables : Tables} (h : a.tables g = .ok tables) {n : Nat}
    {s : State} (hs : a.states[n]? = some s) {name : String} {q : Nat}
    (hq : tables.goto? n name = some q) : Leads g s.transitions name q := by
  obtain ⟨_, row, _, _, hrow, hgotos⟩ := exists_rows h hs
  rw [Tables.goto?, hrow] at hq
  rcases (find?_foldlM_addGoto hgotos name).1 q hq with hq | hq
  · cases hq
  · exact hq

theorem Reads.action?_iff {tables : Tables} (wf : g.WellFormed) (h : Reads g a tables)
    (htables : a.tables g = .ok tables) {n : Nat} {s : State} (hs : a.states[n]? = some s)
    {x : SymbolId} (hx : x.index < g.symbols.length)
    (hany : ∀ t ∈ s.transitions, t.symbol = x → t.lookahead = .any) {action : Action} :
    tables.action? n (g.nameOf x) = some action ↔
      ∃ t ∈ s.transitions, t.symbol = x ∧ a.action? g t = .ok (some action) := by
  have hplain : ∀ entry, tables.action? n (g.nameOf x) = some entry → entry.isPlain = true := by
    intro entry hentry
    obtain ⟨t, ht, _, hname, hlook⟩ := exists_transition_of_action? htables hs hentry
    have hsymbol := wf.name?_injective hname (Grammar.name?_eq_some_nameOf hx)
    cases hcase : entry.isPlain with
    | true => rfl
    | false => exact absurd (hany t ht hsymbol) (hlook hcase)
  -- a plain entry is what is decided with nothing behind the symbol
  have hdecide : tables.decide? n [g.nameOf x] = tables.action? n (g.nameOf x) := by
    rw [Tables.decide?]
    cases hentry : tables.action? n (g.nameOf x) with
    | none => rfl
    | some entry => exact Action.resolve_of_isPlain (hplain entry hentry) []
  have hiff := h.decide_iff n s x [] action hs hx fun y hy => absurd hy List.not_mem_nil
  rw [List.map_nil, hdecide] at hiff
  refine hiff.trans ⟨?_, ?_⟩
  · rintro ⟨t, ht, hsymbol, _, haction⟩
    exact ⟨t, ht, hsymbol, haction⟩
  · rintro ⟨t, ht, hsymbol, haction⟩
    refine ⟨t, ht, hsymbol, ?_, haction⟩
    rw [hany t ht hsymbol]
    exact Lookahead.admits_any []

end Automaton
end ShiftReduce
