/-
Tables say what their automaton says.

The tables of an automaton without conflicts decide as its transitions do: an
action is read exactly where a transition on the symbol admits the input behind
it, and a state is gone to exactly where a goto leads.  `tables_read` is that
statement, about symbols on the side of the automaton and about their names on the
side of the tables.

It holds for lookaheads of one symbol at most.  Longer ones share nested entries with
shorter ones, and a row answers with the transition that reaches furthest into the input
(`read_actionRow_iff_deepest`); among transitions that look ahead by one symbol at most,
one that reaches further than another admits the input as well.
-/
import ShiftReduce.Proofs.Automaton.Conflict
import ShiftReduce.Proofs.Automaton.Lookahead
import ShiftReduce.Proofs.Checked.Item
import ShiftReduce.Proofs.Table.Lookup

namespace ShiftReduce

theorem forall₂_of_mapM_option {α β : Type} {f : α → Option β} {xs : List α} {ys : List β}
    (h : xs.mapM f = some ys) : List.Forall₂ (fun x y => f x = some y) xs ys := by
  induction xs generalizing ys with
  | nil =>
    rw [List.mapM_nil] at h
    cases h
    exact .nil
  | cons x rest ih =>
    rw [List.mapM_cons] at h
    obtain ⟨y, hy, h⟩ := Option.bind_eq_some_iff.mp h
    obtain ⟨more, hmore, h⟩ := Option.bind_eq_some_iff.mp h
    cases h
    exact .cons hy (ih hmore)

namespace Lookahead

/-! ## Names for symbols -/

variable {g : Grammar} (hnames : (g.symbols.map Symbol.name).Nodup)

include hnames

theorem nameOf_mem_iff {s : SymbolSet} {names : List String} (h : s.names? g = some names)
    {x : SymbolId} (hx : x.index < g.symbols.length) : g.nameOf x ∈ names ↔ x ∈ s := by
  have hall := forall₂_of_mapM_option h
  constructor
  · intro hmem
    obtain ⟨i, hi, hget⟩ := List.mem_iff_getElem.mp hmem
    have hi' : i < s.members.length := by
      have := hall.length_eq
      omega
    have hname : g.name? s.members[i] = some names[i] := hall.get hi' hi
    rw [hget] at hname
    rw [Grammar.name?_injective hnames (Grammar.name?_eq_some_nameOf hx) hname]
    exact List.getElem_mem hi'
  · intro hmem
    obtain ⟨i, hi, hget⟩ := List.mem_iff_getElem.mp hmem
    have hi' : i < names.length := by
      have := hall.length_eq
      omega
    have hname : g.name? s.members[i] = some names[i] := hall.get hi hi'
    rw [hget, Grammar.name?_eq_some_nameOf hx] at hname
    rw [Option.some.inj hname]
    exact List.getElem_mem hi'

/-- The answer that an action leaves under the columns of some sets.  The columns end with
the first empty set, and no input gets past that. -/
theorem putting_columns {sets : List SymbolSet} {positions : List (List String)}
    (h : List.Forall₂ (fun (s : SymbolSet) names => s.names? g = some names) (throughEmpty sets)
      positions)
    {rest : List SymbolId} (hrest : ∀ x ∈ rest, x.index < g.symbols.length) (action : Action) :
    action.putting positions (rest.map g.nameOf) =
      ⟨fitting sets rest + 1, if fitting sets rest = sets.length then some action else none⟩ := by
  induction sets generalizing positions rest with
  | nil =>
    cases h
    cases rest <;> rfl
  | cons s more ih =>
    obtain ⟨names, tail, rfl, hs, htail⟩ : ∃ names tail, positions = names :: tail ∧
        s.names? g = some names ∧ (s.isEmpty = false →
          List.Forall₂ (fun (s : SymbolSet) names => s.names? g = some names)
            (throughEmpty more) tail) := by
      rw [throughEmpty] at h
      split at h
      · rename_i hempty
        obtain ⟨names, tail, hs, _, rfl⟩ := List.forall₂_cons_left_iff.mp h
        exact ⟨names, tail, rfl, hs, fun hno => absurd (hempty.symm.trans hno) Bool.noConfusion⟩
      · obtain ⟨names, tail, hs, htail, rfl⟩ := List.forall₂_cons_left_iff.mp h
        exact ⟨names, tail, rfl, hs, fun _ => htail⟩
    cases rest with
    | nil => rfl
    | cons x rest =>
      have hx := nameOf_mem_iff hnames hs (hrest x List.mem_cons_self)
      rw [List.map_cons, Action.putting, fitting]
      by_cases hmem : x ∈ s
      · have hsome : s.isEmpty = false := SymbolSet.isEmpty_eq_false_iff.mpr ⟨x, hmem⟩
        rw [if_pos (hx.mpr hmem), if_pos hmem,
          ih (htail hsome) fun y hy => hrest y (List.mem_cons_of_mem x hy)]
        simp [Action.Answer.below]
      · rw [if_neg fun h => hmem (hx.mp h), if_neg hmem]
        simp

/-- The answer that an action leaves under a lookahead: it is found behind the symbols that the
lookahead reaches, and only if these are all that it asks for. -/
def answer (l : Lookahead) (action : Action) (rest : List SymbolId) : Action.Answer :=
  ⟨l.reach rest + 1, if l.reach rest = l.size then some action else none⟩

end Lookahead

namespace Automaton

/-! ## Rows -/

variable {g : Grammar} {a : Automaton}

theorem exists_action_of_carries {t : Transition} (ht : ∃ item, a.item t.origin = .ok item)
    (hcarries : t.move.carriesLookahead = true) :
    ∃ action, a.action? g t = .ok (some action) := by
  obtain ⟨item, hitem⟩ := ht
  unfold action?
  cases hm : t.move with
  | shift target l => exact ⟨_, rfl⟩
  | reduce l => exact ⟨_, bind_eq_ok.mpr ⟨item, hitem, rfl⟩⟩
  | goto target =>
    rw [hm] at hcarries
    cases hcarries
  | accept =>
    rw [hm] at hcarries
    cases hcarries

theorem isPlain_of_action? {t : Transition} {action : Action}
    (h : a.action? g t = .ok (some action)) : action.isPlain = true := by
  unfold action? at h
  split at h
  · cases h
    rfl
  · cases h
    rfl
  · obtain ⟨item, _, h⟩ := bind_eq_ok.mp h
    cases h
    rfl
  · cases h

theorem of_action?_shift {t : Transition} {next : Nat}
    (h : a.action? g t = .ok (some (.shift next))) :
    ∃ (target : StateId) (l : Lookahead), t.move = .shift target l ∧ target.index = next := by
  unfold action? at h
  split at h
  · cases h
  · rename_i target l hmove
    cases h
    exact ⟨target, l, hmove, rfl⟩
  · obtain ⟨item, _, h⟩ := bind_eq_ok.mp h
    cases h
  · cases h

theorem of_action?_reduce {t : Transition} {rule : Nat} {left : String}
    {symbols : List (Option String)}
    (h : a.action? g t = .ok (some (.reduce rule left symbols))) :
    ∃ (l : Lookahead) (item : Item), t.move = .reduce l ∧ a.item t.origin = .ok item ∧
      item.rule.index = rule ∧ g.nameOf (item.left g) = left ∧
        g.bindingsOf item.rule = symbols := by
  unfold action? at h
  split at h
  · cases h
  · cases h
  · rename_i l hmove
    obtain ⟨item, hitem, h⟩ := bind_eq_ok.mp h
    cases h
    exact ⟨l, item, hmove, hitem, rfl, rfl, rfl⟩
  · cases h

theorem of_action?_accept {t : Transition} (h : a.action? g t = .ok (some .accept)) :
    t.move = .accept := by
  unfold action? at h
  split at h
  · rename_i hmove
    exact hmove
  · cases h
  · obtain ⟨item, _, h⟩ := bind_eq_ok.mp h
    cases h
  · cases h

/-- The transition puts its action under its symbol and its lookahead. -/
structure Puts (g : Grammar) (a : Automaton) (t : Transition) (p : Put) : Prop where
  action : a.action? g t = .ok (some p.action)
  column : g.name? t.symbol = some p.column
  positions : t.lookahead.columns? g = some p.positions

theorem addAction_eq_ok {row row' : Row Action} {t : Transition}
    (h : a.addAction g row t = .ok row') :
    (a.action? g t = .ok none ∧ row' = row) ∨ ∃ p, Puts g a t p ∧ row' = Put.into row p := by
  obtain ⟨found, hfound, h⟩ := bind_eq_ok.mp h
  cases found with
  | none =>
    cases h
    exact Or.inl ⟨hfound, rfl⟩
  | some action =>
    obtain ⟨column, hcolumn, h⟩ := bind_eq_ok.mp h
    obtain ⟨positions, hpositions, h⟩ := bind_eq_ok.mp h
    cases h
    refine Or.inr ⟨⟨column, positions, action⟩, ?_, rfl⟩
    exact ⟨hfound, Failure.orForeign_eq_ok.mp hcolumn, Failure.orForeign_eq_ok.mp hpositions⟩

/-- What a row is filled with: one put for each transition that does anything. -/
theorem exists_puts {ts : List Transition} {row row' : Row Action}
    (h : ts.foldlM (a.addAction g) row = .ok row') :
    ∃ puts : List Put, row' = puts.foldl Put.into row ∧ (∀ p ∈ puts, ∃ t ∈ ts, Puts g a t p) ∧
      ∀ t ∈ ts, a.action? g t = .ok none ∨ ∃ p ∈ puts, Puts g a t p := by
  induction ts generalizing row with
  | nil =>
    rw [List.foldlM_nil] at h
    cases h
    exact ⟨[], rfl, by simp, by simp⟩
  | cons t rest ih =>
    rw [List.foldlM_cons] at h
    obtain ⟨next, hnext, h⟩ := bind_eq_ok.mp h
    obtain ⟨puts, hrow, hfrom, hall⟩ := ih h
    have later : ∀ p ∈ puts, ∃ u ∈ t :: rest, Puts g a u p := by
      intro p hp
      obtain ⟨u, hu, hputs⟩ := hfrom p hp
      exact ⟨u, List.mem_cons_of_mem t hu, hputs⟩
    rcases addAction_eq_ok hnext with ⟨hnone, rfl⟩ | ⟨p, hp, rfl⟩
    · refine ⟨puts, hrow, later, fun u hu => ?_⟩
      rcases List.mem_cons.mp hu with rfl | hu
      · exact Or.inl hnone
      · exact hall u hu
    · refine ⟨p :: puts, hrow, fun q hq => ?_, fun u hu => ?_⟩
      · rcases List.mem_cons.mp hq with rfl | hq
        · exact ⟨t, List.mem_cons_self, hp⟩
        · exact later q hq
      · rcases List.mem_cons.mp hu with rfl | hu
        · exact Or.inr ⟨p, List.mem_cons_self, hp⟩
        · refine (hall u hu).imp_right ?_
          rintro ⟨q, hq, hputs⟩
          exact ⟨q, List.mem_cons_of_mem p hq, hputs⟩

theorem mem_actionOrder {ts : List Transition} {t : Transition} :
    t ∈ actionOrder ts ↔ t ∈ ts ∧ t.kind ≠ .goto := by
  rw [actionOrder, List.mem_flatMap]
  constructor
  · rintro ⟨kind, hkind, ht⟩
    obtain ⟨ht, he⟩ := List.mem_filter.mp ht
    refine ⟨ht, fun hgoto => ?_⟩
    rw [hgoto, beq_iff_eq] at he
    rw [← he] at hkind
    exact absurd hkind (by decide)
  · rintro ⟨ht, hne⟩
    refine ⟨t.kind, ?_, List.mem_filter.mpr ⟨ht, beq_self_eq_true _⟩⟩
    cases hk : t.kind with
    | accept => decide
    | shift => decide
    | reduce => decide
    | goto => exact absurd hk hne

theorem addGoto_eq_ok {row row' : Row Nat} {t : Transition} (h : addGoto g row t = .ok row') :
    (∃ (target : StateId) (name : String), t.move = .goto target ∧
      g.name? t.symbol = some name ∧ row' = row.put name target.index) ∨
    ((∀ target, t.move ≠ .goto target) ∧ row' = row) := by
  unfold addGoto at h
  cases hm : t.move with
  | goto target =>
    rw [hm] at h
    obtain ⟨name, hname, h⟩ := bind_eq_ok.mp h
    cases h
    exact Or.inl ⟨target, name, rfl, Failure.orForeign_eq_ok.mp hname, rfl⟩
  | shift target l =>
    rw [hm] at h
    cases h
    exact Or.inr ⟨fun _ e => Move.noConfusion e, rfl⟩
  | reduce l =>
    rw [hm] at h
    cases h
    exact Or.inr ⟨fun _ e => Move.noConfusion e, rfl⟩
  | accept =>
    rw [hm] at h
    cases h
    exact Or.inr ⟨fun _ e => Move.noConfusion e, rfl⟩

/-- Some transition goes to a state on the symbol with this name. -/
def Leads (g : Grammar) (ts : List Transition) (column : String) (q : Nat) : Prop :=
  ∃ t ∈ ts, ∃ target, t.move = .goto target ∧ g.name? t.symbol = some column ∧ target.index = q

/-- Gotos put into a row later take the place of earlier ones. -/
theorem find?_foldlM_addGoto {ts : List Transition} {row row' : Row Nat}
    (h : ts.foldlM (addGoto g) row = .ok row') (column : String) :
    (∀ q, row'.find? column = some q → row.find? column = some q ∨ Leads g ts column q) ∧
      ∀ q, row.find? column = some q ∨ Leads g ts column q → row'.find? column ≠ none := by
  induction ts generalizing row with
  | nil =>
    rw [List.foldlM_nil] at h
    cases h
    refine ⟨fun q hq => Or.inl hq, fun q hq => ?_⟩
    rcases hq with hq | ⟨t, ht, _⟩
    · rw [hq]
      exact Option.some_ne_none q
    · exact absurd ht List.not_mem_nil
  | cons t rest ih =>
    rw [List.foldlM_cons] at h
    obtain ⟨next, hnext, h⟩ := bind_eq_ok.mp h
    obtain ⟨hsound, htotal⟩ := ih h
    have later : ∀ q, Leads g rest column q → Leads g (t :: rest) column q := by
      rintro q ⟨u, hu, hleads⟩
      exact ⟨u, List.mem_cons_of_mem t hu, hleads⟩
    rcases addGoto_eq_ok hnext with ⟨target, name, hmove, hname, rfl⟩ | ⟨hno, rfl⟩
    · by_cases e : column = name
      · rw [e] at hsound htotal later ⊢
        rw [Row.find?_put_self] at hsound htotal
        refine ⟨fun q hq => Or.inr ?_, fun q _ => htotal _ (Or.inl rfl)⟩
        rcases hsound q hq with hq | hq
        · exact ⟨t, List.mem_cons_self, target, hmove, hname, Option.some.inj hq⟩
        · exact later q hq
      · rw [Row.find?_put_of_ne e] at hsound htotal
        refine ⟨fun q hq => (hsound q hq).imp_right (later q), fun q hq => htotal q ?_⟩
        rcases hq with hq | ⟨u, hu, target', hmove', hname', hindex⟩
        · exact Or.inl hq
        · rcases List.mem_cons.mp hu with rfl | hu
          · rw [hname] at hname'
            exact absurd (Option.some.inj hname').symm e
          · exact Or.inr ⟨u, hu, target', hmove', hname', hindex⟩
    · refine ⟨fun q hq => (hsound q hq).imp_right (later q), fun q hq => htotal q ?_⟩
      rcases hq with hq | ⟨u, hu, target', hmove', hrest⟩
      · exact Or.inl hq
      · rcases List.mem_cons.mp hu with rfl | hu
        · exact absurd hmove' (hno target')
        · exact Or.inr ⟨u, hu, target', hmove', hrest⟩

/-! ## No conflicts -/

theorem action?_eq_of_sameOutcome {t u : Transition} (h : t.sameOutcome u = true) :
    a.action? g t = a.action? g u := by
  unfold Transition.sameOutcome at h
  unfold action?
  cases ht : t.move <;> cases hu : u.move <;> rw [ht, hu] at h <;>
    first
    | cases h
    | rfl
    | rw [beq_iff_eq] at h
      rw [h]

theorem sameOutcome_of_admits (hcheck : a.check g = .ok ()) {s : State} (hs : s ∈ a.states)
    {id : StateId} (hsite : ∀ t ∈ s.transitions, t.origin.state = id) {t u : Transition}
    (ht : t ∈ s.transitions) (hu : u ∈ s.transitions) (hsymbol : t.symbol = u.symbol)
    {rest : List SymbolId} (hadmits : t.lookahead.Admits rest)
    (hadmits' : u.lookahead.Admits rest) : t.sameOutcome u = true := by
  have hno := conflictsWith_eq_false_of_check hcheck hs ht hu
  rw [Transition.conflictsWith, hsite t ht, hsite u hu, hsymbol, beq_self_eq_true,
    beq_self_eq_true, Lookahead.disjoint_eq_false_of_admits hadmits hadmits'] at hno
  cases hsame : t.sameOutcome u with
  | true => rfl
  | false =>
    rw [hsame] at hno
    cases hno

/-! ## Reading -/

theorem kind_of_action?_none {t : Transition} (h : a.action? g t = .ok none) :
    t.kind = .goto := by
  unfold action? at h
  unfold Transition.kind
  cases hm : t.move with
  | goto target => rfl
  | accept =>
    rw [hm] at h
    cases h
  | shift target l =>
    rw [hm] at h
    cases h
  | reduce l =>
    rw [hm] at h
    obtain ⟨item, _, h⟩ := bind_eq_ok.mp h
    cases h

theorem lookahead_of_goto {t : Transition} (h : t.kind = .goto) : t.lookahead = .any := by
  unfold Transition.kind at h
  unfold Transition.lookahead
  cases hm : t.move <;> rw [hm] at h <;> cases h
  rfl

theorem kind_ne_goto_of_action? {t : Transition} {action : Action}
    (h : a.action? g t = .ok (some action)) : t.kind ≠ .goto := by
  intro hgoto
  unfold Transition.kind at hgoto
  unfold action? at h
  cases hm : t.move <;> rw [hm] at hgoto h <;> cases hgoto
  cases h

section Deepest

variable (hnames : (g.symbols.map Symbol.name).Nodup) {s : State}

include hnames

/-- The answer that a put leaves is that of its transition. -/
theorem Puts.answer_eq {t : Transition} {p : Put} (h : Puts g a t p) {rest : List SymbolId}
    (hrest : ∀ y ∈ rest, y.index < g.symbols.length) :
    p.answer (rest.map g.nameOf) = t.lookahead.answer p.action rest :=
  Lookahead.putting_columns hnames (forall₂_of_mapM_option h.positions) hrest p.action

/-- What is read is answered by the deepest of the puts under the symbol, and these are what
the transitions on the symbol put. -/
theorem exists_answers {row : Row Action} (h : a.actionRow g s = .ok row) {x : SymbolId}
    {rest : List SymbolId} (hx : x.index < g.symbols.length)
    (hrest : ∀ y ∈ rest, y.index < g.symbols.length) :
    ∃ answers : List Action.Answer,
      row.read (g.nameOf x :: rest.map g.nameOf) =
        (answers.foldl Action.Answer.deeper ⟨0, none⟩).action ∧
      (∀ p ∈ answers, ∃ t ∈ s.transitions, t.symbol = x ∧ ∃ action,
        a.action? g t = .ok (some action) ∧ p = t.lookahead.answer action rest) ∧
      ∀ t ∈ s.transitions, t.symbol = x → t.kind ≠ .goto → ∃ action,
        a.action? g t = .ok (some action) ∧ t.lookahead.answer action rest ∈ answers := by
  obtain ⟨puts, hrow, hfrom, hall⟩ := exists_puts h
  have hplain : ∀ p ∈ puts, p.action.isPlain = true := by
    intro p hp
    obtain ⟨t, _, hputs⟩ := hfrom p hp
    exact isPlain_of_action? hputs.action
  refine ⟨(puts.filter fun p => p.column == g.nameOf x).map fun p =>
    p.answer (rest.map g.nameOf), ?_, ?_, ?_⟩
  · rw [Row.read_cons, hrow, Put.reading_foldl_into hplain, Row.find?, List.lookup_nil,
      Action.reading_none]
  · intro answer hanswer
    obtain ⟨p, hp, rfl⟩ := List.mem_map.mp hanswer
    obtain ⟨hp, hcolumn⟩ := List.mem_filter.mp hp
    obtain ⟨t, ht, hputs⟩ := hfrom p hp
    have hname : g.name? t.symbol = some (g.nameOf x) := beq_iff_eq.mp hcolumn ▸ hputs.column
    exact ⟨t, (mem_actionOrder.mp ht).1,
      Grammar.name?_injective hnames hname (Grammar.name?_eq_some_nameOf hx),
      p.action, hputs.action, hputs.answer_eq hnames hrest⟩
  · intro t ht hsymbol hkind
    rcases hall t (mem_actionOrder.mpr ⟨ht, hkind⟩) with hnone | ⟨p, hp, hputs⟩
    · exact absurd (kind_of_action?_none hnone) hkind
    · refine ⟨p.action, hputs.action,
        List.mem_map.mpr ⟨p, List.mem_filter.mpr ⟨hp, ?_⟩, hputs.answer_eq hnames hrest⟩⟩
      have hcolumn := hputs.column
      rw [hsymbol, Grammar.name?_eq_some_nameOf hx] at hcolumn
      rw [Option.some.inj hcolumn, beq_self_eq_true]

/-- What a row says on some input is the action of a transition that admits the input, one of
those that no other transition on the symbol reaches further than. -/
theorem exists_deepest_of_read {row : Row Action} (h : a.actionRow g s = .ok row) {x : SymbolId}
    {rest : List SymbolId} (hx : x.index < g.symbols.length)
    (hrest : ∀ y ∈ rest, y.index < g.symbols.length) {action : Action}
    (hread : row.read (g.nameOf x :: rest.map g.nameOf) = some action) :
    ∃ t ∈ s.transitions, t.symbol = x ∧ t.lookahead.Admits rest ∧
      a.action? g t = .ok (some action) ∧
        ∀ u ∈ s.transitions, u.symbol = x → u.lookahead.reach rest ≤ t.lookahead.size := by
  obtain ⟨answers, he, hfrom, hall⟩ := exists_answers hnames h hx hrest
  rw [he] at hread
  obtain ⟨p, hp, hspeaks, hdepth⟩ := Action.Answer.exists_mem_of_foldl_deeper hread
  rcases List.mem_cons.mp hp with rfl | hp
  · cases hspeaks
  · obtain ⟨t, ht, hsymbol, action', haction, rfl⟩ := hfrom p hp
    obtain ⟨hreach, hsome⟩ := Option.ite_none_right_eq_some.mp hspeaks
    cases hsome
    refine ⟨t, ht, hsymbol, Lookahead.admits_iff_reach.mpr hreach, haction, fun u hu hsymbol' => ?_⟩
    by_cases hkind : u.kind = .goto
    · have := u.lookahead.reach_le_size rest
      rw [lookahead_of_goto hkind] at this ⊢
      exact this.trans (Nat.zero_le _)
    · obtain ⟨_, _, hmem⟩ := hall u hu hsymbol' hkind
      have hle : u.lookahead.reach rest + 1 ≤ t.lookahead.reach rest + 1 :=
        (Action.Answer.depth_le_foldl_deeper ⟨0, none⟩ hmem).trans_eq hdepth.symm
      omega

/-- Where some transition admits the input and no other on the symbol reaches further, something
is read. -/
theorem read_ne_none_of_deepest {row : Row Action} (h : a.actionRow g s = .ok row)
    {rest : List SymbolId} (hrest : ∀ y ∈ rest, y.index < g.symbols.length) {t : Transition}
    (ht : t ∈ s.transitions) (hx : t.symbol.index < g.symbols.length)
    (hadmits : t.lookahead.Admits rest) (hkind : t.kind ≠ .goto)
    (hmax : ∀ u ∈ s.transitions, u.symbol = t.symbol →
      u.lookahead.reach rest ≤ t.lookahead.size) :
    row.read (g.nameOf t.symbol :: rest.map g.nameOf) ≠ none := by
  obtain ⟨answers, he, hfrom, hall⟩ := exists_answers hnames h hx hrest
  obtain ⟨action, _, hmem⟩ := hall t ht rfl hkind
  have hreach := Lookahead.admits_iff_reach.mp hadmits
  rw [he]
  refine Action.Answer.foldl_deeper_ne_none (List.mem_cons_of_mem _ hmem) ?_ fun q hq => ?_
  · simp [Lookahead.answer, hreach]
  · rcases List.mem_cons.mp hq with rfl | hq
    · exact Nat.zero_le _
    · obtain ⟨u, hu, hsymbol, _, _, rfl⟩ := hfrom q hq
      have := hmax u hu hsymbol
      show u.lookahead.reach rest + 1 ≤ t.lookahead.reach rest + 1
      omega

end Deepest

section Rows

variable (hcheck : a.check g = .ok ()) {s : State} (hs : s ∈ a.states) {id : StateId}
  (hsite : ∀ t ∈ s.transitions, t.origin.state = id)

include hcheck hs hsite

/-- Without conflicts, what is read is the action of any transition that admits the input and
that no other on the symbol reaches further than. -/
theorem read_actionRow_iff_deepest (hnames : (g.symbols.map Symbol.name).Nodup)
    {row : Row Action} (h : a.actionRow g s = .ok row) {x : SymbolId} {rest : List SymbolId}
    (hx : x.index < g.symbols.length) (hrest : ∀ y ∈ rest, y.index < g.symbols.length)
    {action : Action} :
    row.read (g.nameOf x :: rest.map g.nameOf) = some action ↔
      ∃ t ∈ s.transitions, t.symbol = x ∧ t.lookahead.Admits rest ∧
        a.action? g t = .ok (some action) ∧
          ∀ u ∈ s.transitions, u.symbol = x → u.lookahead.reach rest ≤ t.lookahead.size := by
  refine ⟨exists_deepest_of_read hnames h hx hrest, ?_⟩
  rintro ⟨t, ht, rfl, hadmits, haction, hmax⟩
  have hfound := read_ne_none_of_deepest hnames h hrest ht hx hadmits
    (kind_ne_goto_of_action? haction) hmax
  -- whatever is read there comes from a transition with the same outcome
  obtain ⟨action', hread⟩ := Option.ne_none_iff_exists'.mp hfound
  obtain ⟨u, hu, hsymbol, hadmits', haction', _⟩ := exists_deepest_of_read hnames h hx hrest hread
  have hsame := sameOutcome_of_admits hcheck hs hsite hu ht hsymbol hadmits' hadmits
  rw [action?_eq_of_sameOutcome hsame, haction] at haction'
  cases haction'
  exact hread

variable (wf : g.WellFormed)

include wf

/-- An action row says what the transitions of its state say, as long as none looks further ahead
than one symbol: then a transition that reaches further than another admits the input too. -/
theorem read_actionRow_iff (hsize : ∀ t ∈ s.transitions, t.lookahead.size ≤ 1)
    {row : Row Action} (h : a.actionRow g s = .ok row) {x : SymbolId} {rest : List SymbolId}
    (hx : x.index < g.symbols.length) (hrest : ∀ y ∈ rest, y.index < g.symbols.length)
    {action : Action} :
    row.read (g.nameOf x :: rest.map g.nameOf) = some action ↔
      ∃ t ∈ s.transitions, t.symbol = x ∧ t.lookahead.Admits rest ∧
        a.action? g t = .ok (some action) := by
  rw [read_actionRow_iff_deepest hcheck hs hsite wf.names_nodup h hx hrest]
  constructor
  · rintro ⟨t, ht, hsymbol, hadmits, haction, _⟩
    exact ⟨t, ht, hsymbol, hadmits, haction⟩
  · rintro ⟨t, ht, hsymbol, hadmits, haction⟩
    by_cases hmax : ∀ u ∈ s.transitions, u.symbol = x →
        u.lookahead.reach rest ≤ t.lookahead.size
    · exact ⟨t, ht, hsymbol, hadmits, haction, hmax⟩
    · push Not at hmax
      obtain ⟨u, hu, hsymbol', hlt⟩ := hmax
      have hle := u.lookahead.reach_le_size rest
      have hone := hsize u hu
      have hadmits' : u.lookahead.Admits rest := Lookahead.admits_iff_reach.mpr (by omega)
      have hsame := sameOutcome_of_admits hcheck hs hsite hu ht (hsymbol'.trans hsymbol.symm)
        hadmits' hadmits
      refine ⟨u, hu, hsymbol', hadmits', (action?_eq_of_sameOutcome hsame).trans haction,
        fun w hw _ => ?_⟩
      have := w.lookahead.reach_le_size rest
      have := hsize w hw
      omega

/-- A goto row says where the gotos of its state lead. -/
theorem find?_gotoRow_iff {row : Row Nat} (h : s.transitions.foldlM (addGoto g) [] = .ok row)
    {x : SymbolId} (hx : x.index < g.symbols.length) {q : Nat} :
    row.find? (g.nameOf x) = some q ↔
      ∃ t ∈ s.transitions, t.symbol = x ∧ ∃ target, t.move = .goto target ∧ target.index = q := by
  obtain ⟨hrow, htotal⟩ := find?_foldlM_addGoto h (g.nameOf x)
  have hsound : ∀ q', row.find? (g.nameOf x) = some q' →
      ∃ t ∈ s.transitions, t.symbol = x ∧ ∃ target, t.move = .goto target ∧
        target.index = q' := by
    intro q' hq'
    rcases hrow q' hq' with hq' | ⟨t, ht, target, hmove, hname, hindex⟩
    · cases hq'
    · exact ⟨t, ht, wf.name?_injective hname (Grammar.name?_eq_some_nameOf hx), target, hmove,
        hindex⟩
  refine ⟨hsound q, ?_⟩
  rintro ⟨t, ht, rfl, target, hmove, hindex⟩
  have hfound := htotal q (Or.inr ⟨t, ht, target, hmove, Grammar.name?_eq_some_nameOf hx, hindex⟩)
  obtain ⟨q', hq'⟩ := Option.ne_none_iff_exists'.mp hfound
  obtain ⟨u, hu, hsymbol, target', hmove', hindex'⟩ := hsound q' hq'
  have hany : ∀ (v : Transition) (id : StateId), v.move = .goto id → v.lookahead.Admits [] := by
    intro v id hv
    rw [Transition.lookahead, hv]
    exact Lookahead.admits_any []
  have hsame := sameOutcome_of_admits hcheck hs hsite hu ht hsymbol
    (hany u target' hmove') (hany t target hmove)
  unfold Transition.sameOutcome at hsame
  rw [hmove, hmove'] at hsame
  have hsame : target' = target := beq_iff_eq.mp hsame
  rw [hq', ← hindex', hsame, hindex]

end Rows

/-- Tables decide as the transitions of an automaton do. -/
structure Reads (g : Grammar) (a : Automaton) (tables : Tables) : Prop where
  decide_iff : ∀ (n : Nat) (s : State) (x : SymbolId) (rest : List SymbolId) (action : Action),
    a.states[n]? = some s → x.index < g.symbols.length →
      (∀ y ∈ rest, y.index < g.symbols.length) →
        (tables.decide? n (g.nameOf x :: rest.map g.nameOf) = some action ↔
          ∃ t ∈ s.transitions, t.symbol = x ∧ t.lookahead.Admits rest ∧
            a.action? g t = .ok (some action))
  goto_iff : ∀ (n : Nat) (s : State) (x : SymbolId) (q : Nat), a.states[n]? = some s →
    x.index < g.symbols.length →
      (tables.goto? n (g.nameOf x) = some q ↔
        ∃ t ∈ s.transitions, t.symbol = x ∧ ∃ target, t.move = .goto target ∧ target.index = q)

/-- The tables of an automaton without conflicts say what it says. -/
theorem tables_read (wf : g.WellFormed) {tables : Tables} (hcheck : a.check g = .ok ())
    (h : a.tables g = .ok tables)
    (hsite : ∀ s ∈ a.states, ∀ t ∈ s.transitions, t.origin.state = s.id)
    (hsize : ∀ s ∈ a.states, ∀ t ∈ s.transitions, t.lookahead.size ≤ 1) :
    Reads g a tables := by
  obtain ⟨actions, hactions, h⟩ := bind_eq_ok.mp h
  obtain ⟨gotos, hgotos, h⟩ := bind_eq_ok.mp h
  obtain ⟨reductions, _, h⟩ := bind_eq_ok.mp h
  cases h
  have hactions := mapM_eq_ok.mp hactions
  have hgotos := mapM_eq_ok.mp hgotos
  refine
    { decide_iff := fun n s x rest action hs hx hrest => ?_
      goto_iff := fun n s x q hs hx => ?_ }
  · obtain ⟨hn, rfl⟩ := List.getElem?_eq_some_iff.mp hs
    have hmem : a.states[n] ∈ a.states := List.getElem_mem hn
    have hn' : n < actions.length := hactions.length_eq ▸ hn
    rw [Tables.decide?, Tables.action?, List.getElem?_eq_getElem hn']
    exact read_actionRow_iff hcheck hmem (hsite _ hmem) wf (hsize _ hmem) (hactions.get hn hn')
      hx hrest
  · obtain ⟨hn, rfl⟩ := List.getElem?_eq_some_iff.mp hs
    have hmem : a.states[n] ∈ a.states := List.getElem_mem hn
    have hn' : n < gotos.length := hgotos.length_eq ▸ hn
    rw [Tables.goto?, List.getElem?_eq_getElem hn']
    exact find?_gotoRow_iff hcheck hmem (hsite _ hmem) wf (hgotos.get hn hn') hx

/-- Tables have a row of either kind for each state. -/
theorem length_of_tables {tables : Tables} (h : a.tables g = .ok tables) :
    tables.action.length = a.size ∧ tables.goto.length = a.size := by
  obtain ⟨actions, hactions, h⟩ := bind_eq_ok.mp h
  obtain ⟨gotos, hgotos, h⟩ := bind_eq_ok.mp h
  obtain ⟨reductions, _, h⟩ := bind_eq_ok.mp h
  cases h
  exact ⟨(mapM_eq_ok.mp hactions).length_eq.symm, (mapM_eq_ok.mp hgotos).length_eq.symm⟩

end Automaton
end ShiftReduce
