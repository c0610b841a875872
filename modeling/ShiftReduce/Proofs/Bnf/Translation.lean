/-
Definitions and the grammar that is made of them.

By the time a grammar is built its symbols are the names that the definitions mention, and
its rules are their alternatives (`proceeds_builder`).  The builder then has nothing to object
to but a nonterminal without rules: `build_of_progress`.  A grammar that was made is read back
by the names of its symbols (`Rule.Says`, `Grammar.Describes`).  The main statement is
`ofDefinitions_faithful`.
-/
import ShiftReduce.Proofs.Bnf.Declarations
import ShiftReduce.Proofs.Grammar.WellFormed

namespace ShiftReduce
namespace Bnf

/-! ## What the builder checks -/

/-- Bindings of an alternative are in range, and are spread over its positions. -/
theorem spreadBindings_eq_ok (a : Alternative) :
    Builder.spreadBindings a.symbols.length a.bindings =
      .ok (a.symbols.map Occurrence.binding) := by
  -- the positions before the present one are done, and those from it on have no binding yet
  have from_here : ∀ (os : List Occurrence) (done : List (Option String)) (length : Nat),
      done.length + os.length = length →
      ((os.zipIdx done.length).filterMap fun entry =>
          entry.1.binding.map fun name => (entry.2, name)).foldlM
        (fun (row : List (Option String)) (binding : Nat × String) =>
          if binding.1 < length then (.ok (row.set binding.1 (some binding.2)) : Except _ _)
          else .error (GrammarError.bindingOutOfRange binding.2 binding.1 length))
        (done ++ List.replicate os.length none) =
      .ok (done ++ os.map Occurrence.binding) := by
    intro os
    induction os with
    | nil => exact fun _ _ _ => rfl
    | cons o rest ih =>
      intro done length hlength
      rw [List.length_cons] at hlength
      have hrest := ih (done ++ [o.binding]) length (by
        rw [List.length_append, List.length_singleton]
        omega)
      rw [List.length_append, List.length_singleton, List.append_assoc, List.append_assoc]
        at hrest
      rw [List.zipIdx_cons, List.length_cons, List.replicate_succ]
      cases hbinding : o.binding with
      | none =>
        rw [hbinding] at hrest
        rw [List.filterMap_cons_none (by rw [hbinding]; rfl), List.map_cons, hbinding]
        exact hrest
      | some name =>
        rw [hbinding] at hrest
        rw [List.filterMap_cons_some (by rw [hbinding]; rfl), List.foldlM_cons,
          if_pos (by dsimp only; omega), List.set_append_right _ _ (Nat.le_refl _), Nat.sub_self,
          List.map_cons, hbinding]
        exact hrest
  exact from_here a.symbols [] a.symbols.length (Nat.zero_add _)

end Bnf

/-- The rule says this when names stand for its handles. -/
structure Rule.Says (g : Grammar) (rule : Rule) (left : String) (a : Bnf.Alternative) : Prop where
  left : g.name? rule.left = some left
  right : rule.right.map g.name? = a.symbols.map fun o => some o.name
  bindings : rule.bindings = a.symbols.map Bnf.Occurrence.binding
  priority : rule.priority = a.priority
  action : rule.action = none

namespace Bnf

/-- The rules say these alternatives in whatever grammar has these symbols. -/
def RulesSay (symbols : List Symbol) (rules : List Rule) (as : List (String × Alternative)) :
    Prop :=
  List.Forall₂ (fun (rule : Rule) e => ∀ g : Grammar, g.symbols = symbols → rule.Says g e.1 e.2)
    rules as

theorem Declared.accept_get? {defined mentioned : List String} {symbols : List Symbol}
    (h : Declared defined mentioned symbols) :
    SymbolId.accept.get? symbols = some ⟨Symbol.acceptName, .nonterminal⟩ := by
  obtain ⟨names, _, _, rfl⟩ := h.symbols_eq
  rfl

theorem Declared.ne_accept {defined mentioned : List String} {symbols : List Symbol}
    (h : Declared defined mentioned symbols) {x : SymbolId} {name : String}
    (hx : x.get? symbols = some (symbolOf defined name)) (hname : name ∈ mentioned) :
    x ≠ .accept := by
  rintro rfl
  rw [h.accept_get?] at hx
  have e : Symbol.acceptName = name := congrArg Symbol.name (Option.some.inj hx)
  have hallowed := h.allowed name hname
  rw [← e] at hallowed
  cases hallowed

theorem Declared.eq_accept {defined mentioned : List String} {symbols : List Symbol}
    (h : Declared defined mentioned symbols) {x : SymbolId} {kind : SymbolKind}
    (hx : x.get? symbols = some ⟨Symbol.acceptName, kind⟩) : x = .accept := by
  have hname : (Grammar.ofSymbols symbols).name? x = some Symbol.acceptName :=
    congrArg (Option.map Symbol.name) hx
  have haccept : (Grammar.ofSymbols symbols).name? .accept = some Symbol.acceptName :=
    congrArg (Option.map Symbol.name) h.accept_get?
  exact Grammar.name?_injective h.names_nodup hname haccept

section Build

variable {total defined mentioned : List String} {as : List (String × Alternative)} {b : Builder}
  (h : Progress total defined mentioned as b)

include h

theorem checkLeft_of_progress {x : SymbolId} {name : String}
    (hx : x.get? b.symbols = some (symbolOf defined name)) (hdefined : name ∈ defined)
    (hname : name ∈ mentioned) : b.checkLeft x = .ok () := by
  refine bind_eq_ok.mpr ⟨_, Builder.symbol_eq_ok.mpr hx, ?_⟩
  rw [symbolOf_of_mem hdefined, bne_iff_ne.mpr (h.declared.ne_accept hx hname)]
  rfl

theorem checkRight_of_progress {x : SymbolId} {name : String}
    (hx : x.get? b.symbols = some (symbolOf defined name)) (hname : name ∈ mentioned) :
    b.checkRight x = .ok () := by
  refine bind_eq_ok.mpr ⟨_, Builder.symbol_eq_ok.mpr hx, if_neg ?_⟩
  have hallowed := h.declared.allowed name hname
  rw [Bool.or_eq_true, beq_iff_eq]
  rintro (hend | rfl)
  · unfold symbolOf Symbol.isEndMarker at hend
    split at hend <;> cases hend
  · cases hallowed

theorem checkRule_of_progress {spec : RuleSpec} {left : String} {a : Alternative}
    (hspec : Given defined b.symbols spec left a) (hdefined : left ∈ defined)
    (hleft : left ∈ mentioned) (ha : ∀ n ∈ a.names, n ∈ mentioned) :
    ∃ rule, b.checkRule spec = .ok rule ∧
      ∀ g : Grammar, g.symbols = b.symbols → rule.Says g left a := by
  have hcheckRight : spec.right.forM b.checkRight = .ok () := by
    refine forM_eq_ok.mpr fun x hx => ?_
    obtain ⟨o, ho, hget⟩ := exists_mem_of_forall₂ hspec.right hx
    exact checkRight_of_progress h hget (ha _ (List.mem_map_of_mem ho))
  have hspread := spreadBindings_eq_ok a
  rw [← hspec.bindings, ← hspec.right.length_eq] at hspread
  refine ⟨_, bind_eq_ok.mpr ⟨_, checkLeft_of_progress h hspec.left hdefined hleft,
    bind_eq_ok.mpr ⟨_, hcheckRight, bind_eq_ok.mpr ⟨_, hspread, rfl⟩⟩⟩, fun g hg => ?_⟩
  have hname : ∀ {x : SymbolId} {n : String}, x.get? b.symbols = some (symbolOf defined n) →
      g.name? x = some n := by
    intro x n hx
    rw [Grammar.name?, Grammar.symbol?, hg, hx]
    rfl
  refine
    { left := hname hspec.left
      right := ?_
      bindings := rfl
      priority := hspec.priority
      action := hspec.action }
  rw [← List.forall₂_eq_eq_eq, List.forall₂_map_left_iff, List.forall₂_map_right_iff]
  exact hspec.right.imp fun _ _ hx => hname hx

/-- The rules of a builder pass their checks one by one. -/
theorem exists_given_of_progress (hleft : ∀ e ∈ as, e.1 ∈ defined ∧ e.1 ∈ mentioned)
    (hright : ∀ e ∈ as, ∀ n ∈ e.2.names, n ∈ mentioned) :
    ∃ given, b.rules.mapM b.checkRule = .ok given ∧ RulesSay b.symbols given as := by
  have hchecks : ∀ e ∈ as, ∀ spec, Given defined b.symbols spec e.1 e.2 →
      ∃ rule, b.checkRule spec = .ok rule ∧
        ∀ g : Grammar, g.symbols = b.symbols → rule.Says g e.1 e.2 := fun e he spec hspec =>
    checkRule_of_progress h hspec (hleft e he).1 (hleft e he).2 (hright e he)
  have hgiven := h.given
  clear hleft hright h
  generalize b.rules = specs at hgiven ⊢
  induction hgiven with
  | nil => exact ⟨[], rfl, .nil⟩
  | cons hspec _ ih =>
    obtain ⟨he, hrest⟩ := List.forall_mem_cons.mp hchecks
    obtain ⟨rule, hrule, hmeans⟩ := he _ hspec
    obtain ⟨given, hmapM, hgiven⟩ := ih hrest
    exact ⟨rule :: given, mapM_eq_ok.mpr (.cons hrule (mapM_eq_ok.mp hmapM)),
      .cons hmeans hgiven⟩

/-- A name has a rule if it has an alternative. -/
theorem exists_rule_iff {start : SymbolId} {given : List Rule}
    (hgiven : RulesSay b.symbols given as) {x : SymbolId} {name : String}
    (hx : x.get? b.symbols = some (symbolOf defined name)) (hname : name ∈ mentioned) :
    (∃ rule ∈ Builder.acceptRule start :: given, rule.left = x) ↔ ∃ a, (name, a) ∈ as := by
  let g := Grammar.ofSymbols b.symbols
  have hnamed : g.name? x = some name := by
    show (x.get? b.symbols).map Symbol.name = _
    rw [hx]
    rfl
  constructor
  · rintro ⟨rule, hrule, hleft⟩
    rcases List.mem_cons.mp hrule with rfl | hrule
    · exact absurd hleft.symm (h.declared.ne_accept hx hname)
    · obtain ⟨e, he, hmeans⟩ := exists_mem_of_forall₂ hgiven hrule
      have hname := (hmeans g rfl).left
      rw [hleft, hnamed] at hname
      rw [Option.some.inj hname]
      exact ⟨e.2, he⟩
  · rintro ⟨a, ha⟩
    obtain ⟨rule, hrule, hmeans⟩ := exists_mem_of_forall₂ (List.Forall₂.flip hgiven) ha
    exact ⟨rule, List.mem_cons_of_mem _ hrule,
      Grammar.name?_injective h.declared.names_nodup (hmeans g rfl).left hnamed⟩

/-- A nonterminal without a rule is a name without alternatives.  The accepting symbol has
rule 0. -/
theorem exists_uncovered {start : SymbolId} {given : List Rule}
    (hgiven : RulesSay b.symbols given as) {x : SymbolId} {s : Symbol}
    (hx : x.get? b.symbols = some s) (hnonterminal : s.isNonterminal = true)
    (hno : ∀ rule ∈ Builder.acceptRule start :: given, rule.left ≠ x) :
    ∃ n ∈ defined, s = symbolOf defined n ∧ ¬ ∃ a, (n, a) ∈ as := by
  rcases h.declared.mem_iff.mp (List.mem_of_getElem? hx) with hs | ⟨n, hn, rfl⟩
  · rcases List.mem_cons.mp hs with rfl | hs
    · cases hnonterminal
    · rw [List.mem_singleton.mp hs] at hx
      exact absurd (h.declared.eq_accept hx).symm (hno _ List.mem_cons_self)
  · have hdefined : n ∈ defined := by
      refine Decidable.byContradiction fun hnot => ?_
      rw [symbolOf_of_not_mem hnot] at hnonterminal
      cases hnonterminal
    refine ⟨n, hdefined, rfl, fun hcovered => ?_⟩
    obtain ⟨rule, hrule, hleft⟩ := (exists_rule_iff h hgiven hx hn).mpr hcovered
    exact hno rule hrule hleft

/-- The builder objects to a name without alternatives and to nothing else. -/
theorem build_of_progress (hroom : total.eraseDups.length + 2 ≤ handleSpan)
    (hdefined : ∀ n ∈ defined, n ∈ mentioned) (hleft : ∀ e ∈ as, e.1 ∈ defined)
    (hright : ∀ e ∈ as, ∀ n ∈ e.2.names, n ∈ mentioned) {start : SymbolId} {name : String}
    (hstart : start.get? b.symbols = some (symbolOf defined name)) (hname : name ∈ defined) :
    (∃ g given, b.build start = .ok g ∧ b.Tabulates (Builder.acceptRule start :: given) g ∧
        RulesSay b.symbols given as ∧ ∀ n ∈ defined, ∃ a, (n, a) ∈ as) ∨
      ∃ n ∈ defined, (¬ ∃ a, (n, a) ∈ as) ∧ b.build start = .error (.noRules n) := by
  obtain ⟨given, hmapM, hgiven⟩ := exists_given_of_progress h
    (fun e he => ⟨hleft e he, hdefined _ (hleft e he)⟩) hright
  have hstartLeft := checkLeft_of_progress h hstart hname (hdefined name hname)
  have hlength := Nat.le_trans (h.declared.length_le h.known) hroom
  have hbuild : b.build start = b.tabulate (Builder.acceptRule start :: given) := by
    rw [Builder.build, hstartLeft, hmapM]
    rfl
  have tabular := Builder.tabular_of_checked h.declared.accept_get? hstartLeft
    (Builder.checked_of_mapM_checkRule hmapM)
  rw [hbuild]
  rcases tabular.tabulate_cases with ⟨i, s, hi, hnonterminal, hno, herror⟩ | ⟨hrules, g, hg, htables⟩
  · obtain ⟨x, rfl, hx⟩ := exists_handle hlength hi
    obtain ⟨n, hn, rfl, huncovered⟩ := exists_uncovered h hgiven hx hnonterminal
      fun rule hrule hleft => hno rule hrule (congrArg Handle.index hleft)
    exact Or.inr ⟨n, hn, huncovered, herror⟩
  · refine Or.inl ⟨g, given, hg, htables, hgiven, fun n hn => ?_⟩
    have hmem := h.declared.mem_iff.mpr (Or.inr ⟨n, hdefined n hn, rfl⟩)
    obtain ⟨i, hi⟩ := List.mem_iff_getElem?.mp hmem
    obtain ⟨x, _, hx⟩ := exists_handle hlength hi
    have hnonterminal : (symbolOf defined n).isNonterminal = true := by
      rw [symbolOf_of_mem hn]
      rfl
    exact (exists_rule_iff h hgiven hx (hdefined n hn)).mp (hrules x _ hx hnonterminal)

end Build

/-! ## What becomes of definitions -/

/-- There is a rule to be had for the name. -/
def HasAlternative (definitions : List Definition) (name : String) : Prop :=
  ∃ d ∈ definitions, d.name = name ∧ d.alternatives ≠ []

theorem hasAlternative_iff {definitions : List Definition} {name : String} :
    HasAlternative definitions name ↔ ∃ a, (name, a) ∈ definitions.flatMap Definition.rules := by
  constructor
  · rintro ⟨d, hd, hname, halternatives⟩
    obtain ⟨a, ha⟩ := List.exists_mem_of_ne_nil _ halternatives
    exact ⟨a, mem_rules_iff.mpr ⟨d, hd, hname, ha⟩⟩
  · rintro ⟨a, h⟩
    obtain ⟨d, hd, hname, ha⟩ := mem_rules_iff.mp h
    exact ⟨d, hd, hname, List.ne_nil_of_mem ha⟩

/-- Definitions that a grammar can be made of.  An alternative may stand in another definition
of the same name. -/
structure Usable (definitions : List Definition) : Prop where
  ne_nil : definitions ≠ []
  allowed : ∀ n ∈ definitions.flatMap Definition.names,
    n ≠ Symbol.endName ∧ n ≠ Symbol.acceptName
  hasAlternative : ∀ d ∈ definitions, HasAlternative definitions d.name

/-- Why definitions are refused: for want of any, over a reserved name, or else over a name
that has no alternative. -/
inductive Refusal : List Definition → GrammarError → Prop
  | noDefinitions : Refusal [] (.malformed .noDefinitions)
  | reservedName {definitions : List Definition} {n : String} :
      n ∈ definitions.flatMap Definition.names → Symbol.isReserved n = true →
      Refusal definitions (.reservedName n)
  | noRules {definitions : List Definition} {n : String} :
      (∀ m ∈ definitions.flatMap Definition.names, Symbol.isReserved m = false) →
      n ∈ definitions.map Definition.name → ¬ HasAlternative definitions n →
      Refusal definitions (.noRules n)

theorem isReserved_eq_false_iff {name : String} : Symbol.isReserved name = false ↔
    name ≠ Symbol.endName ∧ name ≠ Symbol.acceptName := by
  rw [Symbol.isReserved, Bool.or_eq_false_iff, beq_eq_false_iff_ne, beq_eq_false_iff_ne]

theorem Refusal.not_usable {definitions : List Definition} {e : GrammarError}
    (h : Refusal definitions e) : ¬ Usable definitions := by
  intro usable
  cases h with
  | noDefinitions => exact usable.ne_nil rfl
  | reservedName hn hreserved =>
    rw [isReserved_eq_false_iff.mpr (usable.allowed _ hn)] at hreserved
    cases hreserved
  | noRules _ hn hno =>
    obtain ⟨d, hd, rfl⟩ := List.mem_map.mp hn
    exact hno (usable.hasAlternative d hd)

/-- What rule 0 says for a name. -/
def acceptance (name : String) : String × Alternative :=
  (Symbol.acceptName, { symbols := [{ name, binding := none }], priority := 0 })

end Bnf

/-- The grammar says what the definitions say: after the rule for the name that is defined
first its rules are their alternatives, and the kind of a name is settled by whether it is
defined. -/
structure Grammar.Describes (g : Grammar) (definitions : List Bnf.Definition) : Prop where
  names_nodup : (g.symbols.map Symbol.name).Nodup
  rules : ∃ first ∈ definitions.head?,
    List.Forall₂ (fun (rule : Rule) e => rule.Says g e.1 e.2) g.rules
      (Bnf.acceptance first.name :: definitions.flatMap Bnf.Definition.rules)
  nonterminal_iff : ∀ name, (∃ x, g.symbol? x = some ⟨name, .nonterminal⟩) ↔
    name = Symbol.acceptName ∨ name ∈ definitions.map Bnf.Definition.name
  terminal_iff : ∀ name, (∃ x, g.symbol? x = some ⟨name, .terminal⟩) ↔
    (∃ d ∈ definitions, ∃ a ∈ d.alternatives, name ∈ a.names) ∧
      name ∉ definitions.map Bnf.Definition.name

namespace Bnf

/-- Every symbol has a handle while there is room for all names. -/
theorem Declared.exists_symbol? {defined mentioned : List String} {g : Grammar}
    (h : Declared defined mentioned g.symbols) (hlength : g.symbols.length ≤ handleSpan)
    {s : Symbol} : (∃ x, g.symbol? x = some s) ↔
      s ∈ Builder.empty.symbols ∨ ∃ n ∈ mentioned, symbolOf defined n = s := by
  rw [← h.mem_iff]
  constructor
  · rintro ⟨x, hx⟩
    exact List.mem_of_getElem? hx
  · intro hs
    obtain ⟨i, hi⟩ := List.mem_iff_getElem?.mp hs
    obtain ⟨x, _, hx⟩ := exists_handle hlength hi
    exact ⟨x, hx⟩

theorem Declared.nonterminal_iff {defined mentioned : List String} {g : Grammar}
    (h : Declared defined mentioned g.symbols) (hlength : g.symbols.length ≤ handleSpan)
    (hdefined : ∀ n ∈ defined, n ∈ mentioned) (name : String) :
    (∃ x, g.symbol? x = some ⟨name, .nonterminal⟩) ↔ name = Symbol.acceptName ∨ name ∈ defined := by
  rw [h.exists_symbol? hlength]
  refine or_congr ?_ ⟨fun ⟨n, _, hsymbol⟩ => ?_, fun hname => ?_⟩
  · constructor
    · intro hs
      rcases List.mem_cons.mp hs with e | hs
      · cases e
      · exact congrArg Symbol.name (List.mem_singleton.mp hs)
    · rintro rfl
      decide
  · by_cases hn : n ∈ defined
    · rw [symbolOf_of_mem hn] at hsymbol
      cases hsymbol
      exact hn
    · rw [symbolOf_of_not_mem hn] at hsymbol
      cases hsymbol
  · exact ⟨name, hdefined name hname, symbolOf_of_mem hname⟩

theorem Declared.terminal_iff {defined mentioned : List String} {g : Grammar}
    (h : Declared defined mentioned g.symbols) (hlength : g.symbols.length ≤ handleSpan)
    (name : String) :
    (∃ x, g.symbol? x = some ⟨name, .terminal⟩) ↔ name ∈ mentioned ∧ name ∉ defined := by
  rw [h.exists_symbol? hlength]
  constructor
  · rintro (hs | ⟨n, hn, hsymbol⟩)
    · have hkind : ∀ s ∈ Builder.empty.symbols, s.kind ≠ .terminal := by decide
      exact absurd rfl (hkind _ hs)
    · by_cases hdefined : n ∈ defined
      · rw [symbolOf_of_mem hdefined] at hsymbol
        cases hsymbol
      · rw [symbolOf_of_not_mem hdefined] at hsymbol
        cases hsymbol
        exact ⟨hn, hdefined⟩
  · rintro ⟨hname, hdefined⟩
    exact Or.inr ⟨name, hname, symbolOf_of_not_mem hdefined⟩

/-- A name that is mentioned and not defined stands in an alternative. -/
theorem mentioned_iff {definitions : List Definition} {name : String}
    (hname : name ∉ definitions.map Definition.name) :
    name ∈ definitions.flatMap Definition.names ↔
      ∃ d ∈ definitions, ∃ a ∈ d.alternatives, name ∈ a.names := by
  rw [List.mem_flatMap]
  refine exists_congr fun d => and_congr_right fun hd => ?_
  have hne : name ≠ d.name := fun e => hname (e ▸ List.mem_map_of_mem hd)
  rw [Definition.names, List.mem_cons, List.mem_flatMap]
  exact or_iff_right hne

/-- What has been told to the builder is what its grammar says. -/
theorem describes_of_progress {definitions : List Definition} {first : Definition}
    {mentioned : List String} {b : Builder} {start : SymbolId} {given : List Rule} {g : Grammar}
    (hroom : (definitions.flatMap Definition.names).eraseDups.length + 2 ≤ handleSpan)
    (hfirst : first ∈ definitions.head?)
    (hmentioned : ∀ n, n ∈ mentioned ↔ n ∈ definitions.flatMap Definition.names)
    (h : Progress (definitions.flatMap Definition.names) (definitions.map Definition.name) mentioned
      (definitions.flatMap Definition.rules) b)
    (hstart : start.get? b.symbols = some (symbolOf (definitions.map Definition.name) first.name))
    (hgiven : RulesSay b.symbols given (definitions.flatMap Definition.rules))
    (htables : b.Tabulates (Builder.acceptRule start :: given) g) : g.Describes definitions := by
  have hsymbols := htables.symbols_eq
  have hdeclared : Declared (definitions.map Definition.name) mentioned g.symbols :=
    hsymbols ▸ h.declared
  have hlength : g.symbols.length ≤ handleSpan := by
    rw [hsymbols]
    exact Nat.le_trans (h.declared.length_le h.known) hroom
  refine
    { names_nodup := hdeclared.names_nodup
      rules := ⟨first, hfirst, ?_⟩
      nonterminal_iff := hdeclared.nonterminal_iff hlength fun n hn =>
        (hmentioned n).mpr (mem_names_of_defined hn)
      terminal_iff := fun name => ?_ }
  · have hname : g.name? start = some first.name := by
      rw [Grammar.name?, Grammar.symbol?, hsymbols, hstart]
      rfl
    rw [htables.rules_eq]
    refine .cons ?_ (hgiven.imp fun _ _ hmeans => hmeans g hsymbols)
    exact
      { left := congrArg (Option.map Symbol.name) hdeclared.accept_get?
        right := congrArg (fun name => [name]) hname
        bindings := rfl
        priority := rfl
        action := rfl }
  · rw [hdeclared.terminal_iff hlength, hmentioned]
    exact and_congr_left mentioned_iff

end Bnf

namespace Grammar

open Bnf

theorem ofDefinitions_eq_bind (first : Definition) (rest : List Definition) :
    ofDefinitions (first :: rest) = (do
      let b ← declareDefined (first :: rest) .empty
      let b ← (first :: rest).foldlM (addDefinition ((first :: rest).map Definition.name)) b
      b.nonterminal first.name) >>= fun r => r.2.build r.1 := by
  simp only [bind_assoc]
  rfl

/-- Either way it is known why. -/
theorem ofDefinitions_outcome {definitions : List Definition}
    (hroom : (definitions.flatMap Definition.names).eraseDups.length + 2 ≤ handleSpan) :
    (∃ g, ofDefinitions definitions = .ok g ∧ Usable definitions ∧ g.Describes definitions) ∨
      ∃ e, ofDefinitions definitions = .error e ∧ Refusal definitions e := by
  cases hdefinitions : definitions with
  | nil => exact Or.inr ⟨_, rfl, .noDefinitions⟩
  | cons first rest =>
    have hfirst : first ∈ definitions := hdefinitions ▸ List.mem_cons_self
    have hdefined : first.name ∈ definitions.map Definition.name := List.mem_map_of_mem hfirst
    have hhead : first ∈ definitions.head? := hdefinitions ▸ rfl
    have hmade := proceeds_builder hroom hfirst
    rw [ofDefinitions_eq_bind, ← hdefinitions]
    rcases hmade with ⟨⟨start, b⟩, hb, mentioned, hmentioned, h, hstart⟩ | ⟨n, hn, hname, herror⟩
    · rw [hb]
      have hallowed : ∀ n ∈ definitions.flatMap Definition.names, Symbol.isReserved n = false :=
        fun n hn => h.declared.allowed n ((hmentioned n).mpr hn)
      rcases build_of_progress h hroom (fun n hn => (hmentioned n).mpr (mem_names_of_defined hn))
        (fun e he => mem_defined_of_rule he)
        (fun e he n hn => (hmentioned n).mpr (mem_names_of_rule he hn)) hstart hdefined with
        ⟨g, given, hbuild, htables, hgiven, hcovered⟩ | ⟨n, hn, huncovered, hbuild⟩
      · refine Or.inl ⟨_, hbuild, ?_, ?_⟩
        · exact
            { ne_nil := List.ne_nil_of_mem hfirst
              allowed := fun n hn => isReserved_eq_false_iff.mp (hallowed n hn)
              hasAlternative := fun d hd =>
                hasAlternative_iff.mpr (hcovered _ (List.mem_map_of_mem hd)) }
        · exact describes_of_progress hroom hhead hmentioned h hstart hgiven htables
      · refine Or.inr ⟨_, hbuild, .noRules hallowed hn fun ha => ?_⟩
        exact huncovered (hasAlternative_iff.mp ha)
    · rw [herror]
      exact Or.inr ⟨_, rfl, .reservedName hn hname⟩

/-- Definitions make a grammar exactly if they are usable, and it says what they say.  What
they are refused over otherwise is one of three things.  The names that are mentioned and the
two that are always there must not outnumber the handles. -/
theorem ofDefinitions_faithful {definitions : List Definition}
    (hroom : (definitions.flatMap Definition.names).eraseDups.length + 2 ≤ handleSpan) :
    ((∃ g, ofDefinitions definitions = .ok g) ↔ Usable definitions) ∧
      (∀ e, ofDefinitions definitions = .error e → Refusal definitions e) ∧
      ∀ g, ofDefinitions definitions = .ok g → g.Describes definitions := by
  rcases ofDefinitions_outcome hroom with ⟨g, hg, usable, hdescribes⟩ | ⟨e, he, refusal⟩
  · refine ⟨⟨fun _ => usable, fun _ => ⟨g, hg⟩⟩, fun e he => ?_, fun g' hg' => ?_⟩
    · rw [hg] at he
      cases he
    · rw [hg] at hg'
      exact Except.ok.inj hg' ▸ hdescribes
  · refine ⟨⟨fun ⟨g, hg⟩ => ?_, fun h => absurd h refusal.not_usable⟩, fun e' he' => ?_,
      fun g hg => ?_⟩
    · rw [he] at hg
      cases hg
    · rw [he] at he'
      exact Except.error.inj he' ▸ refusal
    · rw [he] at hg
      cases hg

/-- Both names are defined in two places, the second of them without alternatives at first and
only after it has been used. -/
def scattered : List Definition :=
  [⟨"list", [⟨[⟨"item", some "head"⟩, ⟨"list", some "tail"⟩], 3⟩]⟩, ⟨"item", []⟩,
    ⟨"list", [⟨[], 0⟩]⟩, ⟨"item", [⟨[⟨"x", none⟩], 0⟩, ⟨[⟨"x", none⟩, ⟨"item", none⟩], -1⟩]⟩]

theorem ofDefinitions_faithful_scattered : ∃ g, ofDefinitions scattered = .ok g ∧
    Usable scattered ∧ g.Describes scattered ∧
      g.symbols.map Symbol.name = ["$end", "$accept", "list", "item", "x"] ∧
      g.rules.map Rule.bindings =
        [[none], [some "head", some "tail"], [], [none], [none, none]] := by
  have hroom : (scattered.flatMap Definition.names).eraseDups.length + 2 ≤ handleSpan := by
    decide
  obtain ⟨g, hg, h⟩ : ∃ g, ofDefinitions scattered = .ok g ∧
      decide (g.symbols.map Symbol.name = ["$end", "$accept", "list", "item", "x"] ∧
        g.rules.map Rule.bindings =
          [[none], [some "head", some "tail"], [], [none], [none, none]]) = true :=
    exists_ok_of_any (by decide +kernel)
  obtain ⟨husable, _, hdescribes⟩ := ofDefinitions_faithful hroom
  exact ⟨g, hg, husable.mp ⟨g, hg⟩, hdescribes g hg, of_decide_eq_true h⟩

end Grammar
end ShiftReduce
