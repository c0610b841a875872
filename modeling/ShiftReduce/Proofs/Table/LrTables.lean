/-
The tables of an LR automaton.

Textbooks make tables from item sets and the edges between them.  A state shifts where an
edge is on an input symbol, accepts where rule 0 is complete, and reduces by every other
rule that is complete, on the input symbols that are kept for the left side of the rule.
Which symbols these are is what methods differ in, so it is a parameter here: `Acts` are
the actions of a state, and `LrTables` says that tables have these actions and no others.
There is one such pair of tables at most.

An automaton whose transitions are those of the canonical collection, but for reductions
on symbols that are not kept, is `Keeping`.  It has no conflicts exactly if no state has
two actions on a symbol, and then its tables are those of the textbooks.
-/
import ShiftReduce.Proofs.Table.Answers
import ShiftReduce.Proofs.Table.Rows

namespace ShiftReduce

theorem Item.eq_of_atEnd {g : Grammar} {item item' : Item} (h : item.atEnd g = true)
    (h' : item'.atEnd g = true) (hrule : item.rule = item'.rule) : item = item' := by
  have hdot : item.dot = item'.dot := by
    rw [beq_iff_eq.mp h, beq_iff_eq.mp h', hrule]
  rw [show item = ⟨item.rule, item.dot⟩ from rfl, hrule, hdot]

namespace Automaton

/-- The actions of a state on an input symbol. -/
inductive Acts (g : Grammar) (a : Automaton) (keeps : SymbolId → SymbolId → Prop) (n : Nat)
    (x : SymbolId) : Action → Prop
  | shift {q : Nat} : g.isTerminal x = true → a.Edge n x q → Acts g a keeps n x (.shift q)
  | reduce {s : State} {item : Item} : a.states[n]? = some s → item ∈ s.itemSet.items →
      item.atEnd g = true → item.rule.index ≠ 0 → g.isTerminal x = true →
        keeps (item.left g) x → Acts g a keeps n x
          (.reduce item.rule.index (g.nameOf (item.left g)) (g.bindingsOf item.rule))
  | accept {s : State} {item : Item} : a.states[n]? = some s → item ∈ s.itemSet.items →
      item.atEnd g = true → item.rule.index = 0 → x = .endMarker → Acts g a keeps n x .accept

/-- No state has two different actions on an input symbol. -/
def Deterministic (g : Grammar) (a : Automaton) (keeps : SymbolId → SymbolId → Prop) : Prop :=
  ∀ (n : Nat) (x : SymbolId) (action action' : Action), Acts g a keeps n x action →
    Acts g a keeps n x action' → action = action'

/-- The tables have these actions under the names of input symbols, and under the names of
nonterminals the edges. -/
structure LrTables (g : Grammar) (a : Automaton) (keeps : SymbolId → SymbolId → Prop)
    (action : List (Row Action)) (goto : List (Row Nat)) : Prop where
  length_action : action.length = a.size
  length_goto : goto.length = a.size
  ascending_action : ∀ row ∈ action, row.Ascending
  ascending_goto : ∀ row ∈ goto, row.Ascending
  action_iff : ∀ (n : Nat) (row : Row Action) (name : String) (entry : Action),
    action[n]? = some row → (row.find? name = some entry ↔
      ∃ x, g.name? x = some name ∧ Acts g a keeps n x entry)
  goto_iff : ∀ (n : Nat) (row : Row Nat) (name : String) (q : Nat), goto[n]? = some row →
    (row.find? name = some q ↔
      ∃ x, g.name? x = some name ∧ g.isNonterminal x = true ∧ a.Edge n x q)

variable {g : Grammar} {a b : Automaton} {keeps keeps' : SymbolId → SymbolId → Prop} {n : Nat}
  {x : SymbolId}

theorem Acts.mono (hkeeps : ∀ A t, keeps A t → keeps' A t) {action : Action}
    (h : Acts g a keeps n x action) : Acts g a keeps' n x action := by
  cases h with
  | shift hx hedge => exact .shift hx hedge
  | reduce hs hitem hend hrule hx hkeep => exact .reduce hs hitem hend hrule hx (hkeeps _ _ hkeep)
  | accept hs hitem hend hrule hx => exact .accept hs hitem hend hrule hx

theorem Acts.exists_state {action : Action} (h : Acts g a keeps n x action) :
    ∃ s, a.states[n]? = some s := by
  cases h with
  | shift _ hedge =>
    obtain ⟨s, _, _, hs, _⟩ := hedge
    exact ⟨s, hs⟩
  | reduce hs _ _ _ _ _ => exact ⟨_, hs⟩
  | accept hs _ _ _ _ => exact ⟨_, hs⟩

theorem Acts.isPlain {action : Action} (h : Acts g a keeps n x action) : action.isPlain = true := by
  cases h <;> rfl

theorem Deterministic.mono (hkeeps : ∀ A t, keeps A t → keeps' A t)
    (h : Deterministic g a keeps') : Deterministic g a keeps :=
  fun n x _ _ haction haction' => h n x _ _ (haction.mono hkeeps) (haction'.mono hkeeps)

namespace LrTables

variable {action action' : List (Row Action)} {goto goto' : List (Row Nat)}

theorem isPlain (h : LrTables g a keeps action goto) {row : Row Action} (hrow : row ∈ action)
    {e : String × Action} (he : e ∈ row) : e.2.isPlain = true := by
  obtain ⟨n, hn⟩ := List.mem_iff_getElem?.mp hrow
  have hfound := (h.ascending_action row hrow).find?_eq_some_iff.mpr he
  obtain ⟨x, _, hacts⟩ := (h.action_iff n row e.1 e.2 hn).mp hfound
  exact hacts.isPlain

/-- The gotos do not depend on what is kept. -/
theorem goto_eq (h : LrTables g a keeps action goto) (h' : LrTables g a keeps' action' goto') :
    goto = goto' := by
  refine Row.ext_rows (h.length_goto.trans h'.length_goto.symm) h.ascending_goto h'.ascending_goto
    fun n row row' name q hrow hrow' => ?_
  exact (h.goto_iff n row name q hrow).trans (h'.goto_iff n row' name q hrow').symm

theorem unique (h : LrTables g a keeps action goto) (h' : LrTables g a keeps action' goto') :
    action = action' ∧ goto = goto' := by
  refine ⟨?_, h.goto_eq h'⟩
  refine Row.ext_rows (h.length_action.trans h'.length_action.symm) h.ascending_action
    h'.ascending_action fun n row row' name entry hrow hrow' => ?_
  exact (h.action_iff n row name entry hrow).trans (h'.action_iff n row' name entry hrow').symm

end LrTables

/-! ## Automata that keep some of the reductions -/

/-- The transition stays if reductions stay on the symbols that are kept. -/
def Stays (g : Grammar) (a : Automaton) (keeps : SymbolId → SymbolId → Prop) (t : Transition) :
    Prop :=
  ∀ (l : Lookahead) (item : Item), t.move = .reduce l → a.item t.origin = .ok item →
    keeps (item.left g) t.symbol

/-- Of the transitions of the one, the other has those that stay. -/
def Keeping (g : Grammar) (a : Automaton) (keeps : SymbolId → SymbolId → Prop) (b : Automaton) :
    Prop :=
  Reworked (fun ts us => ∀ t, t ∈ us ↔ t ∈ ts ∧ Stays g a keeps t) a b

theorem keeping_self (g : Grammar) (a : Automaton) : Keeping g a (fun _ _ => True) a :=
  List.forall₂_same.mpr fun _ _ =>
    ⟨rfl, rfl, fun _ => (and_iff_left fun _ _ _ _ => trivial).symm⟩

/-- Two transitions that make the parser do the same lead to the same. -/
theorem Canonical.sameOutcome_of_action? (hc : Canonical g a) {s : State}
    (hs : a.states[n]? = some s) {t u : Transition} (ht : t ∈ s.transitions)
    (hu : u ∈ s.transitions) {action : Action} (haction : a.action? g t = .ok (some action))
    (haction' : a.action? g u = .ok (some action)) : t.sameOutcome u = true := by
  unfold Transition.sameOutcome
  cases action with
  | lookahead table wildcard => cases isPlain_of_action? haction
  | accept => rw [of_action?_accept haction, of_action?_accept haction']
  | shift q =>
    obtain ⟨target, _, hmove, hindex⟩ := of_action?_shift haction
    obtain ⟨target', _, hmove', hindex'⟩ := of_action?_shift haction'
    rw [hmove, hmove']
    exact beq_iff_eq.mpr (Handle.ext (hindex.trans hindex'.symm))
  | reduce rule left symbols =>
    obtain ⟨_, item, hmove, hitem, hrule, _⟩ := of_action?_reduce haction
    obtain ⟨_, item', hmove', hitem', hrule', _⟩ := of_action?_reduce haction'
    obtain ⟨_, i, _, hi, hposition, hprescribes⟩ := hc.prescribes_of_mem hs ht
    obtain ⟨_, i', _, hi', hposition', hprescribes'⟩ := hc.prescribes_of_mem hs hu
    obtain rfl : item = i := Except.ok.inj (hitem.symm.trans hi)
    obtain rfl : item' = i' := Except.ok.inj (hitem'.symm.trans hi')
    rw [hmove] at hprescribes
    rw [hmove'] at hprescribes'
    -- complete items of one rule are the same, and each stands in one place
    have hsame : item = item' :=
      Item.eq_of_atEnd hprescribes.of_reduce.1 hprescribes'.of_reduce.1
        (Handle.ext (hrule.trans hrule'.symm))
    have hposition : t.origin.position = u.origin.position := by
      have hlt := (List.getElem?_eq_some_iff.mp hposition).1
      exact (List.getElem?_inj hlt s.itemSet.nodup).mp (by rw [hposition, hposition', hsame])
    have hstate : t.origin.state = u.origin.state := by
      have hmem := List.mem_of_getElem? hs
      exact (hc.state_origin hc.sharpens_self hmem ht).trans
        (hc.state_origin hc.sharpens_self hmem hu).symm
    have horigin : t.origin = u.origin := by
      rw [show t.origin = ⟨t.origin.state, t.origin.position⟩ from rfl, hstate, hposition]
    rw [hmove, hmove']
    exact beq_iff_eq.mpr horigin

/-- What is in another transition's way makes the parser do something, since gotos are in
nobody's way. -/
theorem Canonical.exists_action_of_ne (hc : Canonical g a) (wf : g.WellFormed) {s : State}
    (hs : a.states[n]? = some s) {t u : Transition} (ht : t ∈ s.transitions)
    (hu : u ∈ s.transitions) (hsymbol : t.symbol = u.symbol)
    (houtcome : t.sameOutcome u = false) : ∃ action, a.action? g t = .ok (some action) := by
  by_cases hcarries : t.move.carriesLookahead = true
  · have hitem := (hc.allGrounded wf s (List.mem_of_getElem? hs) t ht).item
    exact exists_action_of_carries hitem hcarries
  · rw [Bool.not_eq_true] at hcarries
    have hkind := (hc.apart wf hs ht hu hsymbol houtcome hcarries).1
    unfold Transition.kind at hkind
    unfold action?
    cases hm : t.move <;> rw [hm] at hkind <;> cases hkind
    exact ⟨.accept, rfl⟩

namespace Keeping

variable (h : Keeping g a keeps b)

include h

theorem mem_iff {s s' : State} (hs : a.states[n]? = some s) (hs' : b.states[n]? = some s')
    {t : Transition} : t ∈ s'.transitions ↔ t ∈ s.transitions ∧ Stays g a keeps t :=
  (h.at hs hs').2.2 t

theorem exists_before {s' : State} (hs' : s' ∈ b.states) : ∃ (n : Nat) (s : State),
    a.states[n]? = some s ∧ ∀ t ∈ s'.transitions, t ∈ s.transitions := by
  obtain ⟨n, s, hs, _, hmem⟩ := Reworked.exists_before h hs'
  exact ⟨n, s, hs, fun t ht => ((hmem t).mp ht).1⟩

variable (hc : Canonical g a)

include hc

theorem any_lookahead {s' : State} (hs' : s' ∈ b.states) {t : Transition}
    (ht : t ∈ s'.transitions) : t.lookahead = .any := by
  obtain ⟨_, s, hs, hmem⟩ := h.exists_before hs'
  exact hc.any_lookahead (List.mem_of_getElem? hs) (hmem t ht)

theorem sharpens : Sharpens b a := by
  refine List.forall₂_iff_get.mpr ⟨List.Forall₂.length_eq h, fun n hn hn' => ?_⟩
  obtain ⟨hid, hset, hmem⟩ := List.Forall₂.get h hn hn'
  refine ⟨hid, hset, fun t ht => ⟨⟨t, ((hmem t).mp ht).1, rfl⟩, ?_⟩⟩
  exact size_of_any (h.any_lookahead hc (List.get_mem _ _) ht)

/-- What an item of a state accounts for is a transition, and stays if it is to be kept. -/
theorem exists_transition {s s' : State} (hs : a.states[n]? = some s)
    (hs' : b.states[n]? = some s') {target : SymbolId → StateId}
    (hcomplete : CompleteBy g a target s) {item : Item} (hitem : item ∈ s.itemSet.items)
    {move : Move} (hprescribes : Prescribes g target item x move)
    (hkeep : ∀ l, move = .reduce l → keeps (item.left g) x) :
    ∃ t ∈ s'.transitions, t.symbol = x ∧ t.move = move ∧ a.item t.origin = .ok item := by
  obtain ⟨position, hposition⟩ := List.mem_iff_getElem?.mp hitem
  have hs₀ : a.states[s.id.index]? = some s := by
    rw [hc.index_id n s hs]
    exact hs
  have horigin : a.item ⟨s.id, position⟩ = .ok item := item_eq_ok.mpr ⟨s, hs₀, hposition⟩
  have ht : (⟨⟨s.id, position⟩, x, move⟩ : Transition) ∈ s.transitions :=
    (hcomplete.mem_iff _).mpr ⟨item, rfl, hposition, hprescribes⟩
  refine ⟨_, (h.mem_iff hs hs').mpr ⟨ht, fun l item' hmove hitem' => ?_⟩, rfl, rfl, horigin⟩
  obtain rfl : item' = item := Except.ok.inj (hitem'.symm.trans horigin)
  exact hkeep l hmove

variable (wf : g.WellFormed)

include wf

theorem exists_of_acts {s s' : State} (hs : a.states[n]? = some s) (hs' : b.states[n]? = some s')
    {action : Action} (hacts : Acts g a keeps n x action) :
    ∃ t ∈ s'.transitions, t.symbol = x ∧ b.action? g t = .ok (some action) := by
  obtain ⟨target, hcomplete⟩ := hc.complete s (List.mem_of_getElem? hs)
  cases hacts with
  | @shift q hx hedge =>
    obtain ⟨s₀, t, id, hs₀, ht, rfl, hto, rfl⟩ := hedge
    obtain rfl : s₀ = s := Option.some.inj (hs₀.symm.trans hs)
    obtain ⟨item, _, hposition, hprescribes⟩ := (hcomplete.mem_iff t).mp ht
    obtain ⟨rfl, hnext⟩ := hprescribes.of_target? hto
    obtain ⟨t', ht', hsymbol, hmove, _⟩ := h.exists_transition hc hs hs' hcomplete
      (List.mem_of_getElem? hposition) (.shift hnext hx) fun l hmove => nomatch hmove
    refine ⟨t', ht', hsymbol, ?_⟩
    rw [action?, hmove]
  | @reduce s₀ item hs₀ hitem hend hrule hx hkeep =>
    obtain rfl : s₀ = s := Option.some.inj (hs₀.symm.trans hs)
    have hinput := List.mem_append.mp (wf.mem_inputSymbols.mpr hx)
    obtain ⟨t', ht', hsymbol, hmove, horigin⟩ := h.exists_transition hc hs hs' hcomplete hitem
      (.reduce hend hrule (hinput.imp_right List.mem_singleton.mp)) fun _ _ => hkeep
    refine ⟨t', ht', hsymbol, ?_⟩
    rw [(h.sharpens hc).action?_eq ⟨item, horigin⟩, action?, hmove]
    exact bind_eq_ok.mpr ⟨item, horigin, rfl⟩
  | @accept s₀ item hs₀ hitem hend hrule hx =>
    obtain rfl : s₀ = s := Option.some.inj (hs₀.symm.trans hs)
    subst hx
    obtain ⟨t', ht', hsymbol, hmove, _⟩ := h.exists_transition hc hs hs' hcomplete hitem
      (.accept hend hrule) fun l hmove => nomatch hmove
    refine ⟨t', ht', hsymbol, ?_⟩
    rw [action?, hmove]

theorem acts_of_mem {s s' : State} (hs : a.states[n]? = some s) (hs' : b.states[n]? = some s')
    {t : Transition} (ht : t ∈ s'.transitions) {action : Action}
    (haction : b.action? g t = .ok (some action)) : Acts g a keeps n t.symbol action := by
  obtain ⟨ht, hstays⟩ := (h.mem_iff hs hs').mp ht
  obtain ⟨target, item, _, hitem, hposition, hprescribes⟩ := hc.prescribes_of_mem hs ht
  have hmem := List.mem_of_getElem? hposition
  rw [(h.sharpens hc).action?_eq ⟨item, hitem⟩] at haction
  cases action with
  | lookahead table wildcard => cases isPlain_of_action? haction
  | accept =>
    rw [of_action?_accept haction] at hprescribes
    obtain ⟨hend, hrule, hx⟩ := hprescribes.of_accept
    exact .accept hs hmem hend hrule hx
  | shift q =>
    obtain ⟨id, l, hmove, hindex⟩ := of_action?_shift haction
    rw [hmove] at hprescribes
    refine .shift hprescribes.of_shift.2.1 ⟨s, t, id, hs, ht, rfl, ?_, hindex⟩
    rw [Transition.target?, hmove]
    rfl
  | reduce rule left symbols =>
    obtain ⟨l, item', hmove, hitem', rfl, rfl, rfl⟩ := of_action?_reduce haction
    obtain rfl : item' = item := Except.ok.inj (hitem'.symm.trans hitem)
    have hkeep := hstays l item' hmove hitem
    rw [hmove] at hprescribes
    refine .reduce hs hmem hprescribes.of_reduce.1 hprescribes.of_reduce.2 ?_ hkeep
    refine hprescribes.isTerminal wf fun hkind => ?_
    cases hkind

/-- The transitions on a symbol make a state do what its actions are. -/
theorem acts_iff {s s' : State} (hs : a.states[n]? = some s) (hs' : b.states[n]? = some s')
    {action : Action} : Acts g a keeps n x action ↔
      ∃ t ∈ s'.transitions, t.symbol = x ∧ b.action? g t = .ok (some action) := by
  constructor
  · exact h.exists_of_acts hc wf hs hs'
  · rintro ⟨t, ht, rfl, haction⟩
    exact h.acts_of_mem hc wf hs hs' ht haction

/-- Without two actions on a symbol no two transitions are in conflict. -/
theorem not_conflicting (hdeterministic : Deterministic g a keeps) {s' : State}
    (hs' : s' ∈ b.states) : ¬ State.Conflicting s'.transitions := by
  rintro ⟨t, ht, u, hu, hconflict⟩
  obtain ⟨_, hsymbol, _, houtcome⟩ := Transition.conflictsWith_iff.mp hconflict
  have houtcome' : u.sameOutcome t = false := by
    rw [Transition.sameOutcome_comm]
    exact houtcome
  have hsharpens := h.sharpens hc
  obtain ⟨n, hn⟩ := List.mem_iff_getElem?.mp hs'
  obtain ⟨s, hs, _, _⟩ := hsharpens.exists_state_before hn
  have ht₀ := ((h.mem_iff hs hn).mp ht).1
  have hu₀ := ((h.mem_iff hs hn).mp hu).1
  obtain ⟨action, haction⟩ := hc.exists_action_of_ne wf hs ht₀ hu₀ hsymbol houtcome
  obtain ⟨action', haction'⟩ := hc.exists_action_of_ne wf hs hu₀ ht₀ hsymbol.symm houtcome'
  have acts : ∀ w ∈ s'.transitions, ∀ action, a.action? g w = .ok (some action) →
      Acts g a keeps n w.symbol action := by
    intro w hw action haction
    have hitem := (hc.allGrounded wf s (List.mem_of_getElem? hs) w ((h.mem_iff hs hn).mp hw).1).item
    rw [← hsharpens.action?_eq hitem] at haction
    exact h.acts_of_mem hc wf hs hn hw haction
  obtain rfl := hdeterministic n t.symbol action action' (acts t ht action haction)
    (hsymbol ▸ acts u hu action' haction')
  rw [hc.sameOutcome_of_action? hs ht₀ hu₀ haction haction'] at houtcome
  cases houtcome

theorem deterministic_of_check (hcheck : b.check g = .ok ()) : Deterministic g a keeps := by
  intro n x action action' hacts hacts'
  obtain ⟨s, hs⟩ := hacts.exists_state
  have hsharpens := h.sharpens hc
  obtain ⟨s', hs'⟩ := hsharpens.exists_state hs
  have hmem := List.mem_of_getElem? hs'
  obtain ⟨t, ht, rfl, haction⟩ := h.exists_of_acts hc wf hs hs' hacts
  obtain ⟨u, hu, hsymbol, haction'⟩ := h.exists_of_acts hc wf hs hs' hacts'
  have hadmits : ∀ w ∈ s'.transitions, w.lookahead.Admits [] := by
    intro w hw
    rw [h.any_lookahead hc hmem hw]
    exact Lookahead.admits_any []
  have hsame := sameOutcome_of_admits hcheck hmem (fun w hw => hc.state_origin hsharpens hmem hw)
    ht hu hsymbol.symm (hadmits t ht) (hadmits u hu)
  rw [action?_eq_of_sameOutcome hsame, haction'] at haction
  cases haction
  rfl

theorem allGrounded : AllGrounded g b := by
  intro s' hs' t ht
  obtain ⟨n, s, hs, hmem⟩ := h.exists_before hs'
  obtain ⟨⟨item, hitem⟩, hsymbol, hsimple⟩ :=
    hc.allGrounded wf s (List.mem_of_getElem? hs) t (hmem t ht)
  exact ⟨⟨item, (h.sharpens hc).item_eq hitem⟩, hsymbol, hsimple⟩

/-! ### Tables -/

section Tables

variable {tables : Tables} (hcheck : b.check g = .ok ()) (htables : b.tables g = .ok tables)

include hcheck htables

theorem action?_iff {s s' : State} (hs : a.states[n]? = some s) (hs' : b.states[n]? = some s')
    {name : String} {entry : Action} : tables.action? n name = some entry ↔
      ∃ x, g.name? x = some name ∧ Acts g a keeps n x entry := by
  have hreads := hc.tables_read wf (h.sharpens hc) hcheck htables
  have named : ∀ x, g.name? x = some name →
      (tables.action? n name = some entry ↔ Acts g a keeps n x entry) := by
    intro x hname
    have hlt := Grammar.lt_of_name?_eq_some hname
    have hany : ∀ t ∈ s'.transitions, t.symbol = x → t.lookahead = .any := fun t ht _ =>
      h.any_lookahead hc (List.mem_of_getElem? hs') ht
    obtain rfl := Grammar.nameOf_of_name? hname
    exact (hreads.action?_iff wf htables hs' hlt hany).trans (h.acts_iff hc wf hs hs').symm
  constructor
  · intro hentry
    obtain ⟨t, _, _, hname, _⟩ := exists_transition_of_action? htables hs' hentry
    exact ⟨t.symbol, hname, (named _ hname).mp hentry⟩
  · rintro ⟨x, hname, hacts⟩
    exact (named x hname).mpr hacts

theorem goto?_iff {s s' : State} (hs : a.states[n]? = some s) (hs' : b.states[n]? = some s')
    {name : String} {q : Nat} : tables.goto? n name = some q ↔
      ∃ x, g.name? x = some name ∧ g.isNonterminal x = true ∧ a.Edge n x q := by
  have hreads := hc.tables_read wf (h.sharpens hc) hcheck htables
  constructor
  · intro hentry
    obtain ⟨t, ht, target, hmove, hname, hindex⟩ := exists_transition_of_goto? htables hs' hentry
    have ht := ((h.mem_iff hs hs').mp ht).1
    obtain ⟨_, _, _, _, _, hprescribes⟩ := hc.prescribes_of_mem hs ht
    rw [hmove] at hprescribes
    refine ⟨t.symbol, hname, hprescribes.of_goto.2.1, s, t, target, hs, ht, rfl, ?_, hindex⟩
    rw [Transition.target?, hmove]
    rfl
  · rintro ⟨x, hname, hx, s₀, t, target, hs₀, ht, rfl, hto, rfl⟩
    obtain rfl : s₀ = s := Option.some.inj (hs₀.symm.trans hs)
    obtain ⟨_, _, _, _, _, hprescribes⟩ := hc.prescribes_of_mem hs ht
    have hmove := hprescribes.eq_goto hx hto
    have hstays : Stays g a keeps t := by
      intro l item hreduce
      rw [hmove] at hreduce
      cases hreduce
    have hlt := Grammar.lt_of_name?_eq_some hname
    obtain rfl := Grammar.nameOf_of_name? hname
    exact (hreads.goto_iff n s' t.symbol target.index hs' hlt).mpr
      ⟨t, (h.mem_iff hs hs').mpr ⟨ht, hstays⟩, rfl, target, hmove, rfl⟩

/-- The tables of such an automaton are those of the textbooks. -/
theorem lrTables : LrTables g a keeps tables.action tables.goto := by
  obtain ⟨hlength, hlength'⟩ := length_of_tables htables
  have hsize : b.size = a.size := Reworked.size_eq h
  have states : ∀ n, n < b.size → ∃ s s', a.states[n]? = some s ∧ b.states[n]? = some s' := by
    intro n hn
    have hs' : b.states[n]? = some _ := List.getElem?_eq_getElem hn
    obtain ⟨s, hs, _, _⟩ := (h.sharpens hc).exists_state_before hs'
    exact ⟨s, _, hs, hs'⟩
  refine
    { length_action := hlength.trans hsize
      length_goto := hlength'.trans hsize
      ascending_action := fun row hrow => ?_
      ascending_goto := fun row hrow => ?_
      action_iff := fun n row name entry hrow => ?_
      goto_iff := fun n row name q hrow => ?_ }
  · obtain ⟨n, hn⟩ := List.mem_iff_getElem?.mp hrow
    obtain ⟨_, s', _, hs'⟩ := states n (hlength ▸ (List.getElem?_eq_some_iff.mp hn).1)
    obtain ⟨row', _, hrow', hactions, _⟩ := exists_rows htables hs'
    obtain rfl : row = row' := Option.some.inj (hn.symm.trans hrow')
    exact ascending_actionRow hactions
  · obtain ⟨n, hn⟩ := List.mem_iff_getElem?.mp hrow
    obtain ⟨_, s', _, hs'⟩ := states n (hlength' ▸ (List.getElem?_eq_some_iff.mp hn).1)
    obtain ⟨_, row', _, _, hrow', hgotos⟩ := exists_rows htables hs'
    obtain rfl : row = row' := Option.some.inj (hn.symm.trans hrow')
    exact ascending_gotoRow hgotos
  · obtain ⟨s, s', hs, hs'⟩ := states n (hlength ▸ (List.getElem?_eq_some_iff.mp hrow).1)
    have hfound : tables.action? n name = row.find? name := by
      rw [Tables.action?, hrow]
      rfl
    rw [← hfound]
    exact h.action?_iff hc wf hcheck htables hs hs'
  · obtain ⟨s, s', hs, hs'⟩ := states n (hlength' ▸ (List.getElem?_eq_some_iff.mp hrow).1)
    have hfound : tables.goto? n name = row.find? name := by
      rw [Tables.goto?, hrow]
      rfl
    rw [← hfound]
    exact h.goto?_iff hc wf hcheck htables hs hs'

end Tables

end Keeping

end Automaton
end ShiftReduce
