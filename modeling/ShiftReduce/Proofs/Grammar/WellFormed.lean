/-
What every grammar satisfies.

`Grammar.WellFormed` is what the checks of a builder come to, said of the finished
grammar: the two symbols and the rule that are always there, names that tell
symbols apart, right sides without the two reserved symbols, a binding for each
position.  `Built.wellFormed` is the only proof here that looks at the builder.

The rest of the file answers the questions that later files ask about symbols and
rules of a well-formed grammar.
-/
import ShiftReduce.Proofs.Grammar.Built

namespace ShiftReduce
namespace Grammar

/-- What the checks of a builder come to.  The two bounds say that every symbol and
every rule has a handle of its own. -/
structure WellFormed (g : Grammar) : Prop where
  names_eq : g.names = Symbol.naming g.symbols
  nullable_eq : g.nullable = nullableSymbols g.symbols g.rules
  first_eq : g.first = firstTable g.symbols g.rules g.nullable
  symbols_eq : ∃ declared : List Symbol,
    g.symbols = ⟨Symbol.endName, .endMarker⟩ :: ⟨Symbol.acceptName, .nonterminal⟩ :: declared ∧
      ∀ s ∈ declared, s.kind ≠ .endMarker
  names_nodup : (g.symbols.map Symbol.name).Nodup
  symbols_lt : g.symbols.length < handleSpan
  rules_eq : ∃ (start : SymbolId) (given : List Rule),
    g.rules = Builder.acceptRule start :: given ∧
      g.isNonterminal start = true ∧ start ≠ .accept ∧
      ∀ rule ∈ given, g.isNonterminal rule.left = true ∧ rule.left ≠ .accept
  rules_lt : g.rules.length < handleSpan
  right_mem : ∀ rule ∈ g.rules, ∀ x ∈ rule.right,
    x.index < g.symbols.length ∧ x ≠ .endMarker ∧ x ≠ .accept
  length_bindings : ∀ rule ∈ g.rules, rule.bindings.length = rule.right.length
  defined : ∀ x : SymbolId, g.isNonterminal x = true → ∃ rule ∈ g.rules, rule.left = x

end Grammar

namespace Builder

theorem checkLeft_eq_ok {b : Builder} {x : SymbolId} (h : b.checkLeft x = .ok ()) :
    ∃ s, b.symbols[x.index]? = some s ∧ s.isNonterminal = true ∧ x ≠ .accept := by
  obtain ⟨s, hs, h⟩ := bind_eq_ok.mp h
  split at h
  · rename_i hc
    rw [Bool.and_eq_true, bne_iff_ne] at hc
    exact ⟨s, symbol_eq_ok.mp hs, hc.1, hc.2⟩
  · cases h

theorem checkRight_eq_ok {b : Builder} {x : SymbolId} (h : b.checkRight x = .ok ()) :
    ∃ s, b.symbols[x.index]? = some s ∧ s.isEndMarker = false ∧ s.name ≠ Symbol.acceptName := by
  obtain ⟨s, hs, h⟩ := bind_eq_ok.mp h
  split at h
  · cases h
  · rename_i hc
    rw [Bool.or_eq_true, not_or, beq_iff_eq, Bool.not_eq_true] at hc
    exact ⟨s, symbol_eq_ok.mp hs, hc.1, hc.2⟩

theorem length_spreadBindings {length : Nat} {bindings : List (Nat × String)}
    {row : List (Option String)} (h : spreadBindings length bindings = .ok row) :
    row.length = length := by
  refine foldlM_induction (fun row => row.length = length) (fun binding _ b c hb hc => ?_)
    List.length_replicate h
  split at hc
  · cases hc
    rw [List.length_set]
    exact hb
  · cases hc

/-- What is known of a rule that passed its checks. -/
structure Checked (b : Builder) (rule : Rule) : Prop where
  left : ∃ s, b.symbols[rule.left.index]? = some s ∧ s.isNonterminal = true ∧ rule.left ≠ .accept
  right : ∀ x ∈ rule.right, ∃ s, b.symbols[x.index]? = some s ∧ s.isEndMarker = false ∧
    s.name ≠ Symbol.acceptName
  bindings : rule.bindings.length = rule.right.length

theorem checked_of_checkRule {b : Builder} {spec : RuleSpec} {rule : Rule}
    (h : b.checkRule spec = .ok rule) : b.Checked rule := by
  obtain ⟨_, hleft, h⟩ := bind_eq_ok.mp h
  obtain ⟨_, hright, h⟩ := bind_eq_ok.mp h
  obtain ⟨bindings, hbindings, h⟩ := bind_eq_ok.mp h
  cases h
  exact
    { left := checkLeft_eq_ok hleft
      right := fun x hx => checkRight_eq_ok (forM_eq_ok.mp hright x hx)
      bindings := length_spreadBindings hbindings }

theorem checked_of_mapM_checkRule {b : Builder} {specs : List RuleSpec} {given : List Rule}
    (h : specs.mapM b.checkRule = .ok given) : ∀ rule ∈ given, b.Checked rule := by
  intro rule hrule
  obtain ⟨spec, _, hspec⟩ := exists_mem_of_forall₂ (mapM_eq_ok.mp h).flip hrule
  exact checked_of_checkRule hspec

theorem Orderly.get?_accept {b : Builder} (orderly : b.Orderly) :
    SymbolId.accept.get? b.symbols = some ⟨Symbol.acceptName, .nonterminal⟩ := by
  obtain ⟨declared, hdeclared, _⟩ := orderly.symbols_eq
  rw [hdeclared]
  rfl

/-- What has been checked has its places in the tables. -/
theorem tabular_of_checked {b : Builder} {start : SymbolId} {given : List Rule}
    (haccept : SymbolId.accept.get? b.symbols = some ⟨Symbol.acceptName, .nonterminal⟩)
    (hstart : b.checkLeft start = .ok ())
    (hgiven : ∀ rule ∈ given, b.Checked rule) : b.Tabular (acceptRule start :: given) where
  left := by
    refine List.forall_mem_cons.mpr ⟨?_, fun rule hrule => ?_⟩
    · exact ⟨_, haccept, rfl⟩
    · obtain ⟨s, hs, hn, _⟩ := (hgiven rule hrule).left
      exact ⟨s, hs, hn⟩
  right := by
    refine List.forall_mem_cons.mpr ⟨fun x hx => ?_, fun rule hrule x hx => ?_⟩
    · rw [List.mem_singleton.mp hx]
      obtain ⟨s, hs, _⟩ := checkLeft_eq_ok hstart
      exact (List.getElem?_eq_some_iff.mp hs).1
    · obtain ⟨s, hs, _⟩ := (hgiven rule hrule).right x hx
      exact (List.getElem?_eq_some_iff.mp hs).1

/-- What a builder that answers has checked. -/
theorem Orderly.build_eq_ok {b : Builder} (orderly : b.Orderly) {start : SymbolId} {g : Grammar}
    (h : b.build start = .ok g) :
    ∃ given : List Rule, b.Tabulates (acceptRule start :: given) g ∧
      b.checkLeft start = .ok () ∧ (∀ rule ∈ given, b.Checked rule) ∧
      ∀ (x : SymbolId) s, b.symbols[x.index]? = some s → s.isNonterminal = true →
        ∃ rule ∈ acceptRule start :: given, rule.left = x := by
  obtain ⟨_, hstart, h⟩ := bind_eq_ok.mp h
  obtain ⟨given, hgiven, h⟩ := bind_eq_ok.mp h
  have hchecked := checked_of_mapM_checkRule hgiven
  rcases (tabular_of_checked orderly.get?_accept hstart hchecked).tabulate_cases with
    ⟨_, _, _, _, _, herror⟩ | ⟨hdefined, g', hg', tabulates⟩
  · rw [herror] at h
    cases h
  · obtain rfl := Except.ok.inj (hg'.symm.trans h)
    exact ⟨given, tabulates, hstart, hchecked, hdefined⟩

theorem Orderly.ne_of_allowed {b : Builder} (orderly : b.Orderly) {x : SymbolId} {s : Symbol}
    (hs : b.symbols[x.index]? = some s) (hend : s.isEndMarker = false)
    (haccept : s.name ≠ Symbol.acceptName) :
    x.index < b.symbols.length ∧ x ≠ .endMarker ∧ x ≠ .accept := by
  obtain ⟨declared, hdeclared, _⟩ := orderly.symbols_eq
  refine ⟨(List.getElem?_eq_some_iff.mp hs).1, ?_, ?_⟩
  · rintro rfl
    rw [hdeclared] at hs
    cases hs
    cases hend
  · rintro rfl
    rw [hdeclared] at hs
    cases hs
    exact haccept rfl

theorem Orderly.ne_endMarker {b : Builder} (orderly : b.Orderly) {x : SymbolId} {s : Symbol}
    (hs : b.symbols[x.index]? = some s) (hn : s.isNonterminal = true) : x ≠ .endMarker := by
  obtain ⟨declared, hdeclared, _⟩ := orderly.symbols_eq
  rintro rfl
  rw [hdeclared] at hs
  cases hs
  cases hn

end Builder

namespace Grammar

theorem isNonterminal_iff {g : Grammar} {x : SymbolId} :
    g.isNonterminal x = true ↔ ∃ s, g.symbols[x.index]? = some s ∧ s.isNonterminal = true := by
  show (g.symbols[x.index]?).any Symbol.isNonterminal = true ↔ _
  cases g.symbols[x.index]? with
  | none => simp
  | some s => simp

/-- Names stay apart however many symbols there are. -/
theorem Built.names_nodup {g : Grammar} (built : g.Built) :
    (g.symbols.map Symbol.name).Nodup := by
  obtain ⟨b, start, made, h⟩ := built.exists_made
  obtain ⟨given, tabulates, _⟩ := made.orderly.build_eq_ok h
  rw [tabulates.symbols_eq]
  exact made.orderly.names_nodup

theorem Built.wellFormed {g : Grammar} (built : g.Built)
    (hsymbols : g.symbols.length < handleSpan) (hrules : g.rules.length < handleSpan) :
    g.WellFormed := by
  obtain ⟨b, start, made, h⟩ := built.exists_made
  have orderly := made.orderly
  obtain ⟨given, tabulates, hstart, hgiven, hdefined⟩ := orderly.build_eq_ok h
  obtain ⟨s, hs, hn, hne⟩ := Builder.checkLeft_eq_ok hstart
  have hnonterminal : ∀ {x : SymbolId} {s : Symbol}, b.symbols[x.index]? = some s →
      s.isNonterminal = true → g.isNonterminal x = true := fun hs hn =>
    isNonterminal_iff.mpr ⟨_, tabulates.symbols_eq ▸ hs, hn⟩
  refine
    { names_eq := by rw [tabulates.names_eq, tabulates.symbols_eq, orderly.names_eq]
      nullable_eq := tabulates.nullable_eq
      first_eq := tabulates.first_eq
      symbols_eq := tabulates.symbols_eq ▸ orderly.symbols_eq
      names_nodup := tabulates.symbols_eq ▸ orderly.names_nodup
      symbols_lt := hsymbols
      rules_eq := ⟨start, given, tabulates.rules_eq, hnonterminal hs hn, hne,
        fun rule hrule => ?_⟩
      rules_lt := hrules
      right_mem := fun rule hrule x hx => ?_
      length_bindings := fun rule hrule => ?_
      defined := fun x hx => ?_ }
  · obtain ⟨s, hs, hn, hne⟩ := (hgiven rule hrule).left
    exact ⟨hnonterminal hs hn, hne⟩
  · rw [tabulates.rules_eq] at hrule
    rw [tabulates.symbols_eq]
    rcases List.mem_cons.mp hrule with rfl | hrule
    · rw [List.mem_singleton.mp hx]
      exact ⟨(List.getElem?_eq_some_iff.mp hs).1, orderly.ne_endMarker hs hn, hne⟩
    · obtain ⟨s, hs, hend, haccept⟩ := (hgiven rule hrule).right x hx
      exact orderly.ne_of_allowed hs hend haccept
  · rw [tabulates.rules_eq] at hrule
    rcases List.mem_cons.mp hrule with rfl | hrule
    · rfl
    · exact (hgiven rule hrule).bindings
  · obtain ⟨s, hs, hn⟩ := isNonterminal_iff.mp hx
    rw [tabulates.rules_eq]
    exact hdefined x s (tabulates.symbols_eq ▸ hs) hn

/-! ## Symbols -/

theorem isTerminal_iff {g : Grammar} {x : SymbolId} :
    g.isTerminal x = true ↔ ∃ s, g.symbols[x.index]? = some s ∧ s.isTerminal = true := by
  show (g.symbols[x.index]?).any Symbol.isTerminal = true ↔ _
  cases g.symbols[x.index]? with
  | none => simp
  | some s => simp

theorem lt_of_isNonterminal {g : Grammar} {x : SymbolId} (h : g.isNonterminal x = true) :
    x.index < g.symbols.length := by
  obtain ⟨s, hs, _⟩ := isNonterminal_iff.mp h
  exact (List.getElem?_eq_some_iff.mp hs).1

theorem lt_of_isTerminal {g : Grammar} {x : SymbolId} (h : g.isTerminal x = true) :
    x.index < g.symbols.length := by
  obtain ⟨s, hs, _⟩ := isTerminal_iff.mp h
  exact (List.getElem?_eq_some_iff.mp hs).1

theorem isTerminal_eq_not_isNonterminal {g : Grammar} {x : SymbolId}
    (h : x.index < g.symbols.length) : g.isTerminal x = !g.isNonterminal x := by
  show (g.symbols[x.index]?).any Symbol.isTerminal = !(g.symbols[x.index]?).any Symbol.isNonterminal
  rw [List.getElem?_eq_getElem h]
  exact Symbol.isTerminal_eq_not_isNonterminal _

theorem isTerminal_of_isNonterminal {g : Grammar} {x : SymbolId}
    (h : g.isNonterminal x = true) :
    g.isTerminal x = false := by
  rw [isTerminal_eq_not_isNonterminal (lt_of_isNonterminal h), h]
  rfl

/-- What the grammar has is told apart by the names. -/
theorem name?_eq_some_nameOf {g : Grammar} {x : SymbolId} (h : x.index < g.symbols.length) :
    g.name? x = some (g.nameOf x) := by
  have e : g.name? x = some g.symbols[x.index].name := by
    rw [name?, symbol?, Handle.get?, List.getElem?_eq_getElem h]
    rfl
  rw [nameOf, e]
  rfl

theorem nameOf_of_name? {g : Grammar} {x : SymbolId} {name : String} (h : g.name? x = some name) :
    g.nameOf x = name := by
  rw [nameOf, h]
  rfl

theorem lt_of_name?_eq_some {g : Grammar} {x : SymbolId} {name : String}
    (h : g.name? x = some name) : x.index < g.symbols.length := by
  obtain ⟨s, hs, _⟩ := Option.map_eq_some_iff.mp h
  exact (List.getElem?_eq_some_iff.mp hs).1

theorem name?_injective {g : Grammar} (hnames : (g.symbols.map Symbol.name).Nodup)
    {x y : SymbolId} {name : String} (hx : g.name? x = some name) (hy : g.name? y = some name) :
    x = y := by
  have name?_eq : ∀ z : SymbolId, g.name? z = (g.symbols.map Symbol.name)[z.index]? := fun z =>
    List.getElem?_map.symm
  have hlt : x.index < (g.symbols.map Symbol.name).length := by
    rw [List.length_map]
    exact lt_of_name?_eq_some hx
  refine Handle.ext ((List.getElem?_inj hlt hnames).mp ?_)
  rw [← name?_eq, ← name?_eq, hx, hy]

namespace WellFormed

variable {g : Grammar} (wf : g.WellFormed)

include wf

theorem name?_injective {x y : SymbolId} {name : String} (hx : g.name? x = some name)
    (hy : g.name? y = some name) : x = y :=
  Grammar.name?_injective wf.names_nodup hx hy

theorem symbols_zero : g.symbols[0]? = some ⟨Symbol.endName, .endMarker⟩ := by
  obtain ⟨declared, e, _⟩ := wf.symbols_eq
  rw [e]
  rfl

theorem symbols_one : g.symbols[1]? = some ⟨Symbol.acceptName, .nonterminal⟩ := by
  obtain ⟨declared, e, _⟩ := wf.symbols_eq
  rw [e]
  rfl

theorem nameOf_endMarker : g.nameOf .endMarker = Symbol.endName := by
  have e : g.name? .endMarker = some Symbol.endName := by
    show (g.symbols[0]?).map Symbol.name = _
    rw [wf.symbols_zero]
    rfl
  rw [nameOf, e]
  rfl

theorem isTerminal_endMarker : g.isTerminal .endMarker = true :=
  isTerminal_iff.mpr ⟨_, wf.symbols_zero, rfl⟩

theorem isNonterminal_accept : g.isNonterminal .accept = true :=
  isNonterminal_iff.mpr ⟨_, wf.symbols_one, rfl⟩

theorem mem_symbolIds {x : SymbolId} : x ∈ g.symbolIds ↔ x.index < g.symbols.length := by
  rw [symbolIds, List.mem_map]
  constructor
  · rintro ⟨i, hi, rfl⟩
    have hi := List.mem_range.mp hi
    have hlt := wf.symbols_lt
    rw [Handle.index_ofNat_of_lt (by omega)]
    exact hi
  · intro h
    exact ⟨x.index, List.mem_range.mpr h, Handle.ofNat_index x⟩

theorem mem_terminals {x : SymbolId} :
    x ∈ g.terminals ↔ g.isTerminal x = true ∧ x ≠ .endMarker := by
  obtain ⟨declared, hsymbols, hdeclared⟩ := wf.symbols_eq
  rw [terminals, List.mem_filter, wf.mem_symbolIds, isTerminal_iff]
  constructor
  · rintro ⟨hlt, hany⟩
    obtain ⟨s, hs, hkind⟩ := (Option.any_eq_true _ _).mp hany
    rw [beq_iff_eq] at hkind
    refine ⟨⟨s, hs, ?_⟩, ?_⟩
    · rw [Symbol.isTerminal, hkind]
    · rintro rfl
      rw [show g.symbol? .endMarker = g.symbols[0]? from rfl, wf.symbols_zero] at hs
      cases hs
      cases hkind
  · rintro ⟨⟨s, hs, hterminal⟩, hne⟩
    refine ⟨(List.getElem?_eq_some_iff.mp hs).1, ?_⟩
    have hkind : s.kind = .terminal := by
      have hnotEnd : s.kind ≠ .endMarker := by
        intro hkind
        match hx : x.index, hs with
        | 0, _ => exact hne (Handle.ext hx)
        | 1, hs =>
          rw [wf.symbols_one] at hs
          cases hs
          cases hkind
        | i + 2, hs =>
          rw [hsymbols] at hs
          exact hdeclared s (List.mem_of_getElem? hs) hkind
      cases s with
      | mk name kind => cases kind <;> simp_all [Symbol.isTerminal]
    rw [show g.symbol? x = g.symbols[x.index]? from rfl, hs]
    simp [hkind]

theorem mem_inputSymbols {x : SymbolId} : x ∈ g.inputSymbols ↔ g.isTerminal x = true := by
  rw [inputSymbols, List.mem_append, wf.mem_terminals, List.mem_singleton]
  constructor
  · rintro (⟨h, _⟩ | rfl)
    · exact h
    · exact wf.isTerminal_endMarker
  · intro h
    by_cases hx : x = .endMarker
    · exact Or.inr hx
    · exact Or.inl ⟨h, hx⟩

end WellFormed

/-! ## Rules -/

theorem leftOf_of_rule? {g : Grammar} {r : RuleId} {rule : Rule} (h : g.rule? r = some rule) :
    g.leftOf r = rule.left := by
  rw [leftOf, h]
  rfl

theorem rightOf_of_rule? {g : Grammar} {r : RuleId} {rule : Rule} (h : g.rule? r = some rule) :
    g.rightOf r = rule.right := by
  rw [rightOf, h]
  rfl

theorem exists_rule?_of_lt {g : Grammar} {r : RuleId} (h : r.index < g.rules.length) :
    ∃ rule ∈ g.rules, g.rule? r = some rule :=
  ⟨g.rules[r.index], List.getElem_mem h, List.getElem?_eq_getElem h⟩

/-- A handle is never beyond the place it was made from. -/
theorem index_lt_of_mem_rulesFor {g : Grammar} {r : RuleId} {x : SymbolId}
    (h : r ∈ g.rulesFor x) : r.index < g.rules.length := by
  rw [rulesFor_eq] at h
  obtain ⟨⟨rule, i⟩, hmem, rfl⟩ := List.mem_map.mp h
  have hi := List.mem_zipIdx_iff_getElem?.mp (List.mem_filter.mp hmem).1
  have hlt : i < g.rules.length := (List.getElem?_eq_some_iff.mp hi).1
  exact Nat.lt_of_le_of_lt (Nat.mod_le i handleSpan) hlt

/-- The rules of a symbol are those with the symbol on the left, as long as every rule has a
handle of its own. -/
theorem mem_rulesFor_iff {g : Grammar} (h : g.rules.length ≤ handleSpan) {r : RuleId}
    {x : SymbolId} : r ∈ g.rulesFor x ↔ ∃ rule, g.rule? r = some rule ∧ rule.left = x := by
  rw [rulesFor_eq, List.mem_map]
  constructor
  · rintro ⟨⟨rule, i⟩, hmem, rfl⟩
    obtain ⟨hmem, hleft⟩ := List.mem_filter.mp hmem
    have hi := List.mem_zipIdx_iff_getElem?.mp hmem
    have hlt := (List.getElem?_eq_some_iff.mp hi).1
    refine ⟨rule, ?_, beq_iff_eq.mp hleft⟩
    rw [rule?, Handle.get?, Handle.index_ofNat_of_lt (Nat.lt_of_lt_of_le hlt h)]
    exact hi
  · rintro ⟨rule, hrule, hleft⟩
    refine ⟨(rule, r.index), List.mem_filter.mpr ⟨?_, beq_iff_eq.mpr hleft⟩, Handle.ofNat_index r⟩
    exact List.mem_zipIdx_iff_getElem?.mpr hrule

namespace WellFormed

variable {g : Grammar} (wf : g.WellFormed)

include wf

/-- Rule 0 derives the start symbol from the accepting one. -/
theorem exists_start : ∃ start : SymbolId, g.start? = some start ∧
    g.rules[0]? = some (Builder.acceptRule start) ∧ g.isNonterminal start = true := by
  obtain ⟨start, given, hrules, hstart, _, _⟩ := wf.rules_eq
  refine ⟨start, ?_, ?_, hstart⟩
  · rw [start?, hrules]
    rfl
  · rw [hrules]
    rfl

theorem leftOf_eq_accept {r : RuleId} (h : r.index < g.rules.length) :
    g.leftOf r = .accept ↔ r.index = 0 := by
  obtain ⟨start, given, hrules, _, _, hgiven⟩ := wf.rules_eq
  obtain ⟨rule, _, hrule⟩ := exists_rule?_of_lt h
  rw [leftOf_of_rule? hrule]
  rw [rule?, Handle.get?, hrules] at hrule
  cases hi : r.index with
  | zero =>
    rw [hi] at hrule
    cases hrule
    simp [Builder.acceptRule]
  | succ i =>
    rw [hi, List.getElem?_cons_succ] at hrule
    have hne := (hgiven rule (List.mem_of_getElem? hrule)).2
    simp [hne]

theorem isNonterminal_leftOf {r : RuleId} (h : r.index < g.rules.length) :
    g.isNonterminal (g.leftOf r) = true := by
  obtain ⟨start, given, hrules, _, _, hgiven⟩ := wf.rules_eq
  obtain ⟨rule, hmem, hrule⟩ := exists_rule?_of_lt h
  rw [leftOf_of_rule? hrule]
  rw [hrules] at hmem
  rcases List.mem_cons.mp hmem with rfl | hmem
  · exact wf.isNonterminal_accept
  · exact (hgiven rule hmem).1

theorem mem_rightOf {r : RuleId} {x : SymbolId} (h : x ∈ g.rightOf r) :
    x.index < g.symbols.length ∧ x ≠ .endMarker ∧ x ≠ .accept := by
  cases hr : g.rule? r with
  | none =>
    rw [rightOf, hr] at h
    exact absurd h List.not_mem_nil
  | some rule =>
    rw [rightOf_of_rule? hr] at h
    exact wf.right_mem rule (List.mem_of_getElem? hr) x h

theorem mem_rulesFor {r : RuleId} {x : SymbolId} :
    r ∈ g.rulesFor x ↔ r.index < g.rules.length ∧ g.leftOf r = x := by
  rw [mem_rulesFor_iff (Nat.le_of_lt wf.rules_lt)]
  constructor
  · rintro ⟨rule, hrule, rfl⟩
    exact ⟨(List.getElem?_eq_some_iff.mp hrule).1, leftOf_of_rule? hrule⟩
  · rintro ⟨hr, rfl⟩
    obtain ⟨rule, _, hrule⟩ := exists_rule?_of_lt hr
    exact ⟨rule, hrule, (leftOf_of_rule? hrule).symm⟩

end WellFormed

end Grammar
end ShiftReduce
