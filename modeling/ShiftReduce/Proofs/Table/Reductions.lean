/-
Reductions and the actions that reduce.

Tables describe each rule that some transition of their automaton reduces by, while their
rows hold the actions of all transitions, put in one after the other.  An action that finds
its place taken is dropped.  Still every action is in some row (`Automaton.Reads.holds_iff`):
a lookahead that is not dead lets some input through, and what the tables read on that input
is the action.  And nothing is in a row that was not put there.  So the rules that tables
describe are the rules that their actions reduce by: `reductions_agree`.
-/
import ShiftReduce.Proofs.Parser.Soundness
import ShiftReduce.Proofs.Refinement.Frame
import ShiftReduce.Proofs.Refinement.OnDemand
import ShiftReduce.Proofs.Table.Answers
import ShiftReduce.Proofs.Table.Rows

namespace ShiftReduce

namespace Action

/-- The action is the entry itself, or is somewhere below it: its wildcard, or in its table. -/
inductive Occurs (action : Action) : Action → Prop
  | here : Occurs action action
  | wildcard {table : Row Action} {fallback : Action} : Occurs action fallback →
      Occurs action (.lookahead table (some fallback))
  | within {table : Row Action} {wildcard : Option Action} {e : String × Action} : e ∈ table →
      Occurs action e.2 → Occurs action (.lookahead table wildcard)

end Action

namespace Row

/-- The action occurs in an entry of the row. -/
def Holds (row : Row Action) (action : Action) : Prop := ∃ e ∈ row, action.Occurs e.2

theorem not_holds_nil (action : Action) : ¬ Holds [] action :=
  fun ⟨_, he, _⟩ => List.not_mem_nil he

theorem holds_of_find? {row : Row Action} {name : String} {entry action : Action}
    (h : row.find? name = some entry) (hoccurs : action.Occurs entry) : row.Holds action := by
  obtain ⟨before, after, rfl, _⟩ := List.lookup_eq_some_iff.mp h
  exact ⟨(name, entry), List.mem_append_right _ List.mem_cons_self, hoccurs⟩

theorem holds_put {row : Row Action} {name : String} {entry action : Action}
    (h : (row.put name entry).Holds action) : action.Occurs entry ∨ row.Holds action := by
  obtain ⟨e, he, hoccurs⟩ := h
  rcases mem_put he with rfl | he
  · exact Or.inl hoccurs
  · exact Or.inr ⟨e, he, hoccurs⟩

end Row

namespace Action

theorem Occurs.eq_of_isPlain {action entry : Action} (h : action.Occurs entry)
    (hentry : entry.isPlain = true) : action = entry := by
  cases h with
  | here => rfl
  | wildcard _ => cases hentry
  | within _ _ => cases hentry

/-- What an entry answers occurs in it. -/
theorem occurs_of_resolve {entry action : Action} {rest : List String}
    (h : entry.resolve rest = some action) : action.Occurs entry := by
  have plain : ∀ (found : Action) (more : List String), found.isPlain = true →
      found.resolve more = some action → action.Occurs found := by
    intro found more hfound h
    rw [resolve_of_isPlain hfound] at h
    cases h
    exact .here
  induction rest generalizing entry with
  | nil =>
    cases entry with
    | lookahead table wildcard =>
      rw [resolve] at h
      rw [h]
      exact .wildcard .here
    | _ => exact plain _ _ rfl h
  | cons name more ih =>
    cases entry with
    | lookahead table wildcard =>
      rw [resolve] at h
      split at h
      · rename_i inner hinner
        obtain ⟨e, he, hoccurs⟩ := Row.holds_of_find? hinner (ih h)
        exact .within he hoccurs
      · rw [h]
        exact .wildcard .here
    | _ => exact plain _ _ rfl h

/-! ## What is in a row was put there -/

variable {action added : Action}

/-- What occurs in the table that an entry is turned into occurs in the entry. -/
theorem occurs_of_asTable {entry : Option Action} (h : Row.Holds (asTable entry).1 action ∨
    ∃ fallback, (asTable entry).2 = some fallback ∧ action.Occurs fallback) :
    ∃ found, entry = some found ∧ action.Occurs found := by
  have plain : ∀ found : Action, (Row.Holds [] action ∨
      ∃ fallback, some found = some fallback ∧ action.Occurs fallback) →
        action.Occurs found := by
    rintro found (h | ⟨fallback, he, h⟩)
    · exact absurd h (Row.not_holds_nil action)
    · cases he
      exact h
  cases entry with
  | none =>
    rcases h with h | ⟨fallback, he, _⟩
    · exact absurd h (Row.not_holds_nil action)
    · cases he
  | some found =>
    refine ⟨found, rfl, ?_⟩
    cases found with
    | lookahead table wildcard =>
      rcases h with ⟨e, he, h⟩ | ⟨fallback, rfl, h⟩
      · exact .within he h
      · exact .wildcard h
    | _ => exact plain _ h

theorem holds_foldl_insert {rest : List (List String)} {names : List String}
    (ih : ∀ (column : String) (row : Row Action), (insert added rest column row).Holds action →
      action = added ∨ row.Holds action) {table : Row Action}
    (h : Row.Holds (names.foldl (fun table name => insert added rest name table) table) action) :
    action = added ∨ table.Holds action := by
  induction names generalizing table with
  | nil => exact Or.inr h
  | cons name more ihnames =>
    rcases ihnames h with h | h
    · exact Or.inl h
    · exact ih name table h

section Insert

variable (hplain : action.isPlain = true)

include hplain

theorem Occurs.of_lookahead {table : Row Action} {wildcard : Option Action}
    (h : action.Occurs (.lookahead table wildcard)) :
    table.Holds action ∨ ∃ fallback, wildcard = some fallback ∧ action.Occurs fallback := by
  cases h with
  | here => cases hplain
  | wildcard h => exact Or.inr ⟨_, rfl, h⟩
  | within he h => exact Or.inl ⟨_, he, h⟩

variable (hadded : added.isPlain = true)

include hadded

theorem holds_insertPlain {column : String} {row : Row Action}
    (h : (insertPlain added column row).Holds action) : action = added ∨ row.Holds action := by
  unfold insertPlain at h
  split at h
  · exact (Row.holds_put h).imp_left fun h => h.eq_of_isPlain hadded
  · rename_i table hfound
    rcases Row.holds_put h with h | h
    · rcases h.of_lookahead hplain with ⟨e, he, h⟩ | ⟨fallback, hfallback, h⟩
      · exact Or.inr (Row.holds_of_find? hfound (.within he h))
      · cases hfallback
        exact Or.inl (h.eq_of_isPlain hadded)
    · exact Or.inr h
  · exact Or.inr h

/-- To insert an action makes no other occur. -/
theorem holds_insert {positions : List (List String)} {column : String} {row : Row Action}
    (h : (insert added positions column row).Holds action) :
    action = added ∨ row.Holds action := by
  induction positions generalizing column row with
  | nil => exact holds_insertPlain hplain hadded h
  | cons names rest ih =>
    have hbefore : (Row.Holds (asTable (row.find? column)).1 action ∨
        ∃ fallback, (asTable (row.find? column)).2 = some fallback ∧ action.Occurs fallback) →
          row.Holds action := by
      intro h
      obtain ⟨found, hfound, h⟩ := occurs_of_asTable h
      exact Row.holds_of_find? hfound h
    rcases Row.holds_put h with h | h
    · rcases h.of_lookahead hplain with h | h
      · rcases holds_foldl_insert (fun _ _ h => ih h) h with h | h
        · exact Or.inl h
        · exact Or.inr (hbefore (Or.inl h))
      · exact Or.inr (hbefore (Or.inr h))
    · exact Or.inr h

end Insert

theorem holds_foldl_into (hplain : action.isPlain = true) {puts : List Put}
    (hputs : ∀ p ∈ puts, p.action.isPlain = true) {row : Row Action}
    (h : Row.Holds (puts.foldl Put.into row) action) :
    (∃ p ∈ puts, p.action = action) ∨ row.Holds action := by
  induction puts generalizing row with
  | nil => exact Or.inr h
  | cons p rest ih =>
    obtain ⟨hp, hrest⟩ := List.forall_mem_cons.mp hputs
    rcases ih hrest h with ⟨q, hq, he⟩ | h
    · exact Or.inl ⟨q, List.mem_cons_of_mem p hq, he⟩
    · exact (holds_insert hplain hp h).imp_left fun he => ⟨p, List.mem_cons_self, he.symm⟩

end Action

/-- The action occurs in some row of actions. -/
def Tables.Holds (t : Tables) (action : Action) : Prop := ∃ row ∈ t.action, row.Holds action

theorem Tables.holds_of_decide {t : Tables} {n : Nat} {input : List String} {action : Action}
    (h : t.decide? n input = some action) : t.Holds action := by
  cases input with
  | nil => cases h
  | cons name rest =>
    obtain ⟨entry, hentry, h⟩ := Option.bind_eq_some_iff.mp h
    obtain ⟨row, hrow, hentry⟩ := Option.bind_eq_some_iff.mp hentry
    exact ⟨row, List.mem_of_getElem? hrow,
      Row.holds_of_find? hentry (Action.occurs_of_resolve h)⟩

theorem Lookahead.Simple.exists_admitted {g : Grammar} {l : Lookahead} (wf : g.WellFormed)
    (h : l.Simple g) (halive : l.isDead = false) :
    ∃ rest : List SymbolId, (∀ y ∈ rest, y.index < g.symbols.length) ∧ l.Admits rest := by
  obtain ⟨u, hterminal, hallows⟩ := h.exists_allowed wf halive
  refine ⟨[u], List.forall_mem_singleton.mpr (Grammar.lt_of_isTerminal hterminal), ?_⟩
  rcases eq_any_or_singleton h.1 with rfl | ⟨s, rfl⟩
  · exact admits_any [u]
  · exact admits_cons.mpr ⟨allows_singleton.mp hallows, admits_any []⟩

namespace Automaton

variable {g : Grammar} {a b : Automaton} {tables : Tables}

/-- The transitions whose actions the rows hold. -/
theorem exists_transition_of_holds (h : a.tables g = .ok tables) {action : Action}
    (hplain : action.isPlain = true) (hholds : tables.Holds action) :
    ∃ s ∈ a.states, ∃ t ∈ s.transitions, a.action? g t = .ok (some action) := by
  obtain ⟨row, hmem, hrow⟩ := hholds
  obtain ⟨n, hn⟩ := List.mem_iff_getElem?.mp hmem
  have hlt : n < a.size := by
    rw [← (length_of_tables h).1]
    exact (List.getElem?_eq_some_iff.mp hn).1
  have hs : a.states[n]? = some _ := List.getElem?_eq_getElem hlt
  obtain ⟨actions, _, hactions, hfill, _⟩ := exists_rows h hs
  rw [hn] at hactions
  cases hactions
  obtain ⟨puts, rfl, hfrom, _⟩ := exists_puts hfill
  have hputs : ∀ p ∈ puts, p.action.isPlain = true := by
    intro p hp
    obtain ⟨t, _, hput⟩ := hfrom p hp
    exact isPlain_of_action? hput.action
  rcases Action.holds_foldl_into hplain hputs hrow with ⟨p, hp, rfl⟩ | hnil
  · obtain ⟨t, ht, hput⟩ := hfrom p hp
    exact ⟨_, List.mem_of_getElem? hs, t, (mem_actionOrder.mp ht).1, hput.action⟩
  · exact absurd hnil (Row.not_holds_nil action)

/-- Rows hold the actions of all transitions, unless one is dead, and no others. -/
theorem Reads.holds_iff (wf : g.WellFormed) (h : Reads g a tables)
    (htables : a.tables g = .ok tables) (hgrounded : a.AllGrounded g)
    (halive : ∀ s ∈ a.states, ∀ t ∈ s.transitions, t.lookahead.isDead = false) {action : Action}
    (hplain : action.isPlain = true) : tables.Holds action ↔
      ∃ s ∈ a.states, ∃ t ∈ s.transitions, a.action? g t = .ok (some action) := by
  refine ⟨exists_transition_of_holds htables hplain, ?_⟩
  rintro ⟨s, hs, t, ht, haction⟩
  have ground := hgrounded s hs t ht
  obtain ⟨n, hn⟩ := List.mem_iff_getElem?.mp hs
  obtain ⟨rest, hrest, hadmits⟩ := ground.simple.exists_admitted wf (halive s hs t ht)
  exact Tables.holds_of_decide ((h.decide_iff n s t.symbol rest action hn ground.symbol hrest).mpr
    ⟨t, ht, rfl, hadmits, haction⟩)

/-! ## Descriptions -/

theorem exists_reductions_of_tables (h : a.tables g = .ok tables) :
    ∃ rules, a.reducedRules = .ok rules ∧ tables.reductions = rules.map g.reduction := by
  obtain ⟨_, _, h⟩ := bind_eq_ok.mp h
  obtain ⟨_, _, h⟩ := bind_eq_ok.mp h
  obtain ⟨reductions, hreductions, h⟩ := bind_eq_ok.mp h
  cases h
  obtain ⟨rules, hrules, h⟩ := bind_eq_ok.mp hreductions
  cases h
  exact ⟨rules, hrules, rfl⟩

/-- The transition reduces by the rule. -/
def ReducesBy (a : Automaton) (t : Transition) (r : RuleId) : Prop :=
  t.kind = .reduce ∧ ∃ item, a.item t.origin = .ok item ∧ item.rule = r

theorem reducedRules_eq_ok {rules : List RuleId} (h : a.reducedRules = .ok rules) :
    rules.Nodup ∧ ∀ r, r ∈ rules ↔ ∃ s ∈ a.states, ∃ t ∈ s.transitions, a.ReducesBy t r := by
  obtain ⟨items, hitems, h⟩ := bind_eq_ok.mp h
  cases h
  have hall := mapM_eq_ok.mp hitems
  refine ⟨nodup_eraseDups _, fun r => ?_⟩
  rw [List.mem_eraseDups, List.mem_map]
  constructor
  · rintro ⟨item, hitem, rfl⟩
    obtain ⟨t, ht, hresult⟩ := exists_mem_of_forall₂ hall.flip hitem
    obtain ⟨s, hs, ht⟩ := List.mem_flatMap.mp ht
    obtain ⟨ht, hkind⟩ := List.mem_filter.mp ht
    exact ⟨s, hs, t, ht, beq_iff_eq.mp hkind, item, hresult, rfl⟩
  · rintro ⟨s, hs, t, ht, hkind, item, hitem, rfl⟩
    have hmem : t ∈ a.states.flatMap fun s => s.transitions.filter fun t => t.kind == .reduce :=
      List.mem_flatMap.mpr ⟨s, hs, List.mem_filter.mpr ⟨ht, beq_iff_eq.mpr hkind⟩⟩
    obtain ⟨found, hfound, hresult⟩ := exists_mem_of_forall₂ hall hmem
    rw [hitem] at hresult
    cases hresult
    exact ⟨item, hfound, rfl⟩

theorem action?_of_reducesBy {t : Transition} {r : RuleId} (h : a.ReducesBy t r) :
    a.action? g t = .ok (some (.reduce r.index (g.nameOf (g.leftOf r)) (g.bindingsOf r))) := by
  obtain ⟨hkind, item, hitem, rfl⟩ := h
  unfold action?
  cases hm : t.move with
  | reduce l => exact bind_eq_ok.mpr ⟨item, hitem, rfl⟩
  | _ =>
    rw [Transition.kind, hm] at hkind
    cases hkind

theorem reducesBy_of_action? {t : Transition} {rule : Nat} {left : String}
    {symbols : List (Option String)}
    (h : a.action? g t = .ok (some (.reduce rule left symbols))) :
    ∃ r : RuleId, a.ReducesBy t r ∧ r.index = rule ∧ g.nameOf (g.leftOf r) = left ∧
      g.bindingsOf r = symbols := by
  obtain ⟨l, item, hmove, hitem, rfl, rfl, rfl⟩ := of_action?_reduce h
  refine ⟨item.rule, ⟨?_, item, hitem, rfl⟩, rfl, rfl, rfl⟩
  rw [Transition.kind, hmove]
  rfl

/-- Rules that are reduced by are rules of the grammar, and never rule 0. -/
theorem Canonical.of_reducesBy (hc : Canonical g a) (wf : g.WellFormed) (hsharpens : b.Sharpens a)
    {s : State} (hs : s ∈ b.states) {t : Transition} (ht : t ∈ s.transitions) {r : RuleId}
    (h : b.ReducesBy t r) : r.index < g.rules.length ∧ r.index ≠ 0 := by
  obtain ⟨hkind, item, hitem, rfl⟩ := h
  obtain ⟨n, hn⟩ := List.mem_iff_getElem?.mp hs
  obtain ⟨before, hbefore, _⟩ := hsharpens.exists_state_before hn
  obtain ⟨_, _, _, _, _, item', hitem', hmem, hprescribes⟩ :=
    Tables.exists_before hc hsharpens hbefore hn ht
  rw [hitem] at hitem'
  cases hitem'
  refine ⟨(hc.belongsTo wf hbefore item hmem).1, ?_⟩
  cases hm : t.move with
  | reduce l =>
    rw [hm] at hprescribes
    exact hprescribes.of_reduce.2
  | _ =>
    rw [Transition.kind, hm] at hkind
    cases hkind

end Automaton

namespace Grammar

/-- No transition behind tables is dead, and what tables need of each is there. -/
theorem WellFormed.allGrounded_behind {g : Grammar} (wf : g.WellFormed)
    (hsize : (Automaton.build g).size < handleSpan) {method : Method} {b : Automaton}
    (hb : method = .plain ∧ b = .build g ∨
      method = .refined ∧ ∃ events, (Automaton.build g).refine g = .ok (b, events)) :
    b.AllGrounded g ∧ ∀ s ∈ b.states, ∀ t ∈ s.transitions, t.lookahead.isDead = false := by
  have hc := wf.canonical hsize
  rcases hb with ⟨_, rfl⟩ | ⟨_, events, hrefine⟩
  · refine ⟨hc.allGrounded wf, fun s hs t ht => ?_⟩
    rw [hc.any_lookahead hs ht]
    rfl
  · refine ⟨hc.allGrounded_refine wf hrefine, fun s hs t ht => ?_⟩
    obtain ⟨_, _, _, _, hrefined⟩ := (Automaton.refined_of_refine wf hrefine).exists_before hs
    exact Refinement.isDead_eq_false_of_refined hrefined ht

/-- A description is of a rule of the grammar, with one binding for each symbol on its right. -/
theorem WellFormed.length_symbols_reduction {g : Grammar} (wf : g.WellFormed) {r : RuleId}
    (h : r.index < g.rules.length) : (g.reduction r).symbols.length = (g.reduction r).right.length ∧
      ∃ rule, g.rules[r.index]? = some rule ∧
        (g.reduction r).symbols.length = rule.right.length := by
  have hlength : (g.reduction r).symbols.length = (g.rightOf r).length := wf.length_bindingsOf h
  obtain ⟨rule, _, hrule⟩ := exists_rule?_of_lt h
  refine ⟨hlength.trans (List.length_map g.nameOf).symm, rule, hrule, ?_⟩
  rw [hlength, rightOf_of_rule? hrule]

/-- The rules that tables describe are those that their actions reduce by.  No rule is described
twice, rule 0 is not among them, and an action that reduces says the same as the description. -/
theorem reductions_agree {g : Grammar} (built : g.Built) (fits : g.Fits) {method : Method}
    {tables : Tables} (h : g.tables method = .ok tables) :
    (tables.reductions.map Reduction.rule).Nodup ∧
      (∀ rule : Nat, (∃ d ∈ tables.reductions, d.rule = rule) ↔
        ∃ left symbols, tables.Holds (.reduce rule left symbols)) ∧
      ∀ (rule : Nat) (left : String) (symbols : List (Option String)),
        tables.Holds (.reduce rule left symbols) → rule ≠ 0 ∧
          (∃ r, g.rules[rule]? = some r ∧ symbols.length = r.right.length) ∧
            ∀ d ∈ tables.reductions, d.rule = rule →
              left = d.left ∧ symbols = d.symbols ∧ symbols.length = d.right.length := by
  have wf := built.wellFormed fits.symbols fits.rules
  have hc := wf.canonical fits.states
  obtain ⟨b, hb, hsharpens, hreads, htables⟩ := wf.exists_behind fits.states h
  obtain ⟨hgrounded, halive⟩ := wf.allGrounded_behind fits.states hb
  obtain ⟨rules, hrules, hdescribed⟩ := Automaton.exists_reductions_of_tables htables
  obtain ⟨hnodup, hmem⟩ := Automaton.reducedRules_eq_ok hrules
  have hholds : ∀ (rule : Nat) (left : String) (symbols : List (Option String)),
      tables.Holds (.reduce rule left symbols) ↔ ∃ s ∈ b.states, ∃ t ∈ s.transitions,
        b.action? g t = .ok (some (.reduce rule left symbols)) :=
    fun _ _ _ => hreads.holds_iff wf htables hgrounded halive rfl
  rw [hdescribed, List.map_map]
  refine ⟨hnodup.map fun r r' => Handle.ext, fun rule => ⟨?_, ?_⟩, ?_⟩
  · rintro ⟨d, hd, rfl⟩
    obtain ⟨r, hr, rfl⟩ := List.mem_map.mp hd
    obtain ⟨s, hs, t, ht, hreduces⟩ := (hmem r).mp hr
    exact ⟨_, _, (hholds _ _ _).mpr ⟨s, hs, t, ht, Automaton.action?_of_reducesBy hreduces⟩⟩
  · rintro ⟨left, symbols, hrule⟩
    obtain ⟨s, hs, t, ht, haction⟩ := (hholds _ _ _).mp hrule
    obtain ⟨r, hreduces, rfl, _, _⟩ := Automaton.reducesBy_of_action? haction
    exact ⟨g.reduction r, List.mem_map_of_mem ((hmem r).mpr ⟨s, hs, t, ht, hreduces⟩), rfl⟩
  · intro rule left symbols hrule
    obtain ⟨s, hs, t, ht, haction⟩ := (hholds _ _ _).mp hrule
    obtain ⟨r, hreduces, rfl, rfl, rfl⟩ := Automaton.reducesBy_of_action? haction
    obtain ⟨hlt, hne⟩ := hc.of_reducesBy wf hsharpens hs ht hreduces
    obtain ⟨hright, hlength⟩ := wf.length_symbols_reduction hlt
    refine ⟨hne, hlength, fun d hd he => ?_⟩
    obtain ⟨r', _, rfl⟩ := List.mem_map.mp hd
    obtain rfl : r' = r := Handle.ext he
    exact ⟨rfl, rfl, hright⟩

/-- In `hinted` the reduction to what need not be written depends on the input behind `x`, and
stands in no other place.  It is held and described all the same. -/
theorem reductions_agree_hinted : ∃ (g : Grammar) (tables : Tables) (entry : Action),
    ofDefinitions hinted = .ok g ∧ g.tables .refined = .ok tables ∧
      tables.reductions.map Reduction.rule = [3, 2, 1] ∧
        tables.action? 0 "x" = some entry ∧ entry.isPlain = false ∧
          tables.Holds (.reduce 3 "hint" []) := by
  obtain ⟨g, hg, h⟩ : ∃ g, ofDefinitions hinted = .ok g ∧ decide (g.Fits ∧
      (g.tables .refined).toOption.any (fun tables =>
        tables.reductions.map Reduction.rule == [3, 2, 1] &&
          (tables.reductions.any fun d => d.rule == 3 && d.left == "hint" && d.symbols == []) &&
            (tables.action? 0 "x").any fun entry => !entry.isPlain) = true) = true :=
    exists_ok_of_any (by decide +kernel)
  obtain ⟨fits, h⟩ := of_decide_eq_true h
  obtain ⟨tables, htables, h⟩ := exists_ok_of_any h
  simp only [Bool.and_eq_true, List.any_eq_true, beq_iff_eq] at h
  obtain ⟨⟨hrules, d, hd, ⟨hrule, hleft⟩, hsymbols⟩, hentry⟩ := h
  obtain ⟨entry, hentry, hnested⟩ := (Option.any_eq_true _ _).mp hentry
  obtain ⟨_, hdescribed, hagree⟩ := reductions_agree (.ofDefinitions hg) fits htables
  obtain ⟨left, symbols, hholds⟩ := (hdescribed 3).mp ⟨d, hd, hrule⟩
  obtain ⟨rfl, rfl, _⟩ := (hagree 3 left symbols hholds).2.2 d hd hrule
  rw [hleft, hsymbols] at hholds
  exact ⟨g, tables, entry, hg, htables, hrules, hentry, by simpa using hnested, hholds⟩

end Grammar
end ShiftReduce
