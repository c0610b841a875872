/-
What a builder makes of the calls it gets.

A caller declares terminals and nonterminals and gives rules, in any order and with any
handles, and may be refused.  `Builder.after` is the builder that such calls leave behind.
Symbols are only ever added at the end, and under names that are not taken, and each is entered in
the table of names by then.  That is all that the bijection of names and symbols rests on
(`Registered`).  What a declaration comes to is said once, by `Orderly.declares`.

A rule is looked at when the grammar is built.  `Buildable` is what `build` asks for, said of
the declared symbols and the given rules, and `Grammar.Records` what the grammar has then.  The
main statement is `registered_and_built`.
-/
import ShiftReduce.Proofs.Grammar.WellFormed
import Mathlib.Data.List.Nodup
import Mathlib.Data.List.Induction

namespace ShiftReduce

/-- The name that counts for a position: of several the last. -/
def lastBinding (bindings : List (Nat × String)) (position : Nat) : Option String :=
  (bindings.filter fun binding => binding.1 == position).getLast?.map Prod.snd

/-- The rule that is given, as it stands in a grammar. -/
def RuleSpec.rule (spec : RuleSpec) : Rule :=
  { left := spec.left, right := spec.right, priority := spec.priority,
    bindings := (List.range spec.right.length).map (lastBinding spec.bindings),
    action := spec.action }

/-- Names and symbols are in bijection: the name of a symbol leads to its place, and what is
found under a name has this name. -/
structure Registered (symbols : List Symbol) (find? : String → Option SymbolId) : Prop where
  names_nodup : (symbols.map Symbol.name).Nodup
  find?_name : ∀ (i : Nat) (s : Symbol), symbols[i]? = some s →
    ∃ x, find? s.name = some x ∧ x.index = i
  name_of_find? : ∀ (name : String) (x : SymbolId), find? name = some x →
    ∃ s, x.get? symbols = some s ∧ s.name = name

namespace Builder

/-! ## Calls -/

/-- What can be asked of a builder before it builds. -/
inductive Call where
  | terminal (name : String)
  | nonterminal (name : String)
  | rule (spec : RuleSpec)

namespace Call

/-- The symbol that a call declares. -/
def symbol? : Call → Option Symbol
  | terminal name => some ⟨name, .terminal⟩
  | nonterminal name => some ⟨name, .nonterminal⟩
  | rule _ => none

/-- The rule that a call gives. -/
def spec? : Call → Option RuleSpec
  | terminal _ => none
  | nonterminal _ => none
  | rule spec => some spec

end Call

/-- The answer to a declaration, and the builder to go on with: the old one if it is refused. -/
def settle (b : Builder) :
    Except GrammarError (SymbolId × Builder) → Except GrammarError (Option SymbolId) × Builder
  | .ok (x, b') => (.ok (some x), b')
  | .error e => (.error e, b)

theorem settle_of_error {b : Builder} {e : GrammarError}
    {answer : Except GrammarError (SymbolId × Builder)} (h : answer = .error e) :
    (b.settle answer).2 = b := by
  rw [h]
  rfl

theorem eq_error_of_settle {b : Builder} {e : GrammarError}
    {answer : Except GrammarError (SymbolId × Builder)} (h : (b.settle answer).1 = .error e) :
    answer = .error e := by
  cases answer with
  | error e' =>
    cases h
    rfl
  | ok result => cases h

theorem eq_ok_of_settle {b : Builder} {x : SymbolId}
    {answer : Except GrammarError (SymbolId × Builder)} (h : (b.settle answer).1 = .ok (some x)) :
    answer = .ok (x, (b.settle answer).2) := by
  cases answer with
  | error e => cases h
  | ok result =>
    cases h
    rfl

/-- The answer to a call, and the builder to go on with.  A rule is taken without an answer. -/
def call (b : Builder) : Call → Except GrammarError (Option SymbolId) × Builder
  | .terminal name => b.settle (b.terminal name)
  | .nonterminal name => b.settle (b.nonterminal name)
  | .rule spec => (.ok none, b.rule spec)

/-- The builder that calls make of the empty one. -/
def after (calls : List Call) : Builder := calls.foldl (fun b c => (b.call c).2) .empty

/-- The rules among some calls, in order. -/
def given (calls : List Call) : List RuleSpec := calls.filterMap Call.spec?

theorem after_snoc (calls : List Call) (c : Call) :
    after (calls ++ [c]) = ((after calls).call c).2 := List.foldl_append

theorem call_of_symbol? {b : Builder} {c : Call} {s : Symbol} (h : c.symbol? = some s) :
    b.call c = b.settle (b.declare s.name s.kind) := by
  cases c with
  | terminal name =>
    cases h
    rfl
  | nonterminal name =>
    cases h
    rfl
  | rule spec => cases h

theorem kind_of_symbol? {c : Call} {s : Symbol} (h : c.symbol? = some s) :
    s.kind ≠ .endMarker := by
  cases c with
  | terminal name =>
    cases h
    exact SymbolKind.noConfusion
  | nonterminal name =>
    cases h
    exact SymbolKind.noConfusion
  | rule spec => cases h

/-! ## Names -/

theorem Orderly.registered {b : Builder} (orderly : b.Orderly)
    (hroom : b.symbols.length ≤ handleSpan) : Registered b.symbols b.find? where
  names_nodup := orderly.names_nodup
  find?_name i s hs := by
    have hlt := (List.getElem?_eq_some_iff.mp hs).1
    refine ⟨⟨i, Nat.lt_of_lt_of_le hlt hroom⟩, ?_, rfl⟩
    exact (orderly.find?_eq_some_iff hroom).mpr ⟨s, hs, rfl⟩
  name_of_find? _ _ h := (orderly.find?_eq_some_iff hroom).mp h

/-! ## Declarations -/

/-- What can come of a declaration: it is refused for its name, or for the kind that the name
has, or it finds the symbol, or it adds it at the end. -/
inductive Declares (b : Builder) (s : Symbol) : Except GrammarError (SymbolId × Builder) → Prop
  | reserved : Symbol.isReserved s.name = true → Declares b s (.error (.reservedName s.name))
  | taken {t : Symbol} : Symbol.isReserved s.name = false → t ∈ b.symbols → t.name = s.name →
      t.kind ≠ s.kind → Declares b s (.error (.kindMismatch s.name))
  | found {x : SymbolId} : Symbol.isReserved s.name = false → x.get? b.symbols = some s →
      Declares b s (.ok (x, b))
  | added : Symbol.isReserved s.name = false → (∀ t ∈ b.symbols, t.name ≠ s.name) →
      Declares b s (.ok (b.push s))

theorem Orderly.declares {b : Builder} (orderly : b.Orderly)
    (hroom : b.symbols.length ≤ handleSpan) (s : Symbol) :
    b.Declares s (b.declare s.name s.kind) := by
  by_cases hreserved : Symbol.isReserved s.name = true
  · rw [Builder.declare, if_pos hreserved]
    exact .reserved hreserved
  · rw [Bool.not_eq_true] at hreserved
    cases hfind : b.find? s.name with
    | none =>
      rw [declare_of_fresh hreserved hfind]
      exact .added hreserved (orderly.find?_eq_none_iff.mp hfind)
    | some x =>
      obtain ⟨t, ht, hname⟩ := (orderly.find?_eq_some_iff hroom).mp hfind
      rw [declare_of_found hreserved hfind ht]
      by_cases hkind : t.kind = s.kind
      · have hsame : t = s := by
          cases t
          cases s
          cases hname
          cases hkind
          rfl
        rw [if_pos hkind]
        exact .found hreserved (hsame ▸ ht)
      · rw [if_neg hkind]
        exact .taken hreserved (List.mem_of_getElem? ht) hname hkind

/-- What a call is answered, and what it leaves behind. -/
structure Answers (b : Builder) (c : Call) : Prop where
  /-- A refusal changes nothing. -/
  refused : ∀ e, (b.call c).1 = .error e → (b.call c).2 = b
  /-- Refused are declarations of the two reserved names, and of names with another kind. -/
  refused_iff : (∃ e, (b.call c).1 = .error e) ↔ ∃ s, c.symbol? = some s ∧
    (Symbol.isReserved s.name = true ∨ ∃ t ∈ b.symbols, t.name = s.name ∧ t.kind ≠ s.kind)
  /-- The handle that is handed out means what was declared. -/
  declared : ∀ s x, c.symbol? = some s → (b.call c).1 = .ok (some x) →
    x.get? (b.call c).2.symbols = some s
  /-- What was declared before is found, and nothing is added. -/
  again : ∀ s x, c.symbol? = some s → Symbol.isReserved s.name = false →
    x.get? b.symbols = some s → b.call c = (.ok (some x), b)

section Declaration

variable {b : Builder} (orderly : b.Orderly) {s : Symbol}

include orderly

theorem Orderly.eq_of_same_name {t : Symbol} {x : SymbolId} (ht : t ∈ b.symbols)
    (hx : x.get? b.symbols = some s) (hname : t.name = s.name) : t = s :=
  List.inj_on_of_nodup_map orderly.names_nodup ht (List.mem_of_getElem? hx) hname

theorem Orderly.declare_eq_error_iff (hroom : b.symbols.length ≤ handleSpan) :
    (∃ e, b.declare s.name s.kind = .error e) ↔
      Symbol.isReserved s.name = true ∨ ∃ t ∈ b.symbols, t.name = s.name ∧ t.kind ≠ s.kind := by
  have h := orderly.declares hroom s
  generalize b.declare s.name s.kind = answer at h
  cases h with
  | reserved hreserved => exact iff_of_true ⟨_, rfl⟩ (Or.inl hreserved)
  | taken _ ht hname hkind => exact iff_of_true ⟨_, rfl⟩ (Or.inr ⟨_, ht, hname, hkind⟩)
  | found hreserved hx =>
    refine iff_of_false nofun ?_
    rintro (h | ⟨t, ht, hname, hkind⟩)
    · exact Bool.false_ne_true (hreserved.symm.trans h)
    · exact hkind (congrArg Symbol.kind (orderly.eq_of_same_name ht hx hname))
  | added hreserved hfresh =>
    refine iff_of_false nofun ?_
    rintro (h | ⟨t, ht, hname, _⟩)
    · exact Bool.false_ne_true (hreserved.symm.trans h)
    · exact hfresh t ht hname

theorem Orderly.get?_of_declare (hroom : b.symbols.length < handleSpan) {x : SymbolId}
    {b' : Builder} (h : b.declare s.name s.kind = .ok (x, b')) : x.get? b'.symbols = some s := by
  have hdeclares := orderly.declares (Nat.le_of_lt hroom) s
  rw [h] at hdeclares
  cases hdeclares with
  | found _ hx => exact hx
  | added _ _ => exact Handle.get?_push hroom s

theorem Orderly.declare_again (hroom : b.symbols.length ≤ handleSpan) {x : SymbolId}
    (hreserved : Symbol.isReserved s.name = false) (hx : x.get? b.symbols = some s) :
    b.declare s.name s.kind = .ok (x, b) := by
  have h := orderly.declares hroom s
  have hfind := (orderly.find?_eq_some_iff hroom).mpr ⟨s, hx, rfl⟩
  generalize b.declare s.name s.kind = answer at h
  cases h with
  | reserved h => exact absurd (hreserved.symm.trans h) Bool.false_ne_true
  | taken _ ht hname hkind =>
    exact absurd (congrArg Symbol.kind (orderly.eq_of_same_name ht hx hname)) hkind
  | found _ hy =>
    have hfind' := (orderly.find?_eq_some_iff hroom).mpr ⟨s, hy, rfl⟩
    rw [Option.some.inj (hfind.symm.trans hfind')]
  | added _ hfresh => exact absurd rfl (hfresh s (List.mem_of_getElem? hx))

/-- Whatever is called, the builder answers as it should. -/
theorem Orderly.answers (hroom : b.symbols.length < handleSpan) (c : Call) : b.Answers c := by
  cases hc : c.symbol? with
  | none =>
    cases c with
    | terminal name => cases hc
    | nonterminal name => cases hc
    | rule spec =>
      exact
        { refused := nofun
          refused_iff := iff_of_false nofun nofun
          declared := nofun
          again := nofun }
  | some s =>
    have hsymbol : ∀ t, c.symbol? = some t → s = t := fun t ht => Option.some.inj (hc.symm.trans ht)
    have hcall := call_of_symbol? (b := b) hc
    refine
      { refused := fun e he => ?_
        refused_iff := ?_
        declared := fun t x ht hx => ?_
        again := fun t x ht hreserved hx => ?_ }
    · rw [hcall] at he ⊢
      exact settle_of_error (eq_error_of_settle he)
    · have hrefused : (∃ e, (b.call c).1 = .error e) ↔ ∃ e, b.declare s.name s.kind = .error e := by
        rw [hcall]
        exact exists_congr fun e => ⟨eq_error_of_settle, fun h => by rw [h]; rfl⟩
      rw [hrefused, orderly.declare_eq_error_iff (Nat.le_of_lt hroom)]
      refine ⟨fun h => ⟨s, hc, h⟩, fun ⟨t, ht, h⟩ => ?_⟩
      rw [hsymbol t ht]
      exact h
    · rw [← hsymbol t ht]
      rw [hcall] at hx ⊢
      exact orderly.get?_of_declare hroom (eq_ok_of_settle hx)
    · rw [← hsymbol t ht] at hreserved hx
      rw [hcall, orderly.declare_again (Nat.le_of_lt hroom) hreserved hx]
      rfl

end Declaration

/-! ## Histories -/

/-- A call gives a rule, or else leaves the builder as it was or to what the declaration made
of it. -/
theorem call_cases (b : Builder) (c : Call) :
    (∃ spec, c = .rule spec) ∨ c.spec? = none ∧ ((b.call c).2 = b ∨
      ∃ (s : Symbol) (x : SymbolId), s.kind ≠ .endMarker ∧
        b.declare s.name s.kind = .ok (x, (b.call c).2)) := by
  have hdeclare : ∀ s, c.symbol? = some s → (b.call c).2 = b ∨ ∃ (s : Symbol) (x : SymbolId),
      s.kind ≠ .endMarker ∧ b.declare s.name s.kind = .ok (x, (b.call c).2) := by
    intro s hs
    rw [call_of_symbol? hs]
    cases hanswer : b.declare s.name s.kind with
    | error e => exact Or.inl rfl
    | ok result => exact Or.inr ⟨s, result.1, kind_of_symbol? hs, hanswer⟩
  cases c with
  | terminal name => exact Or.inr ⟨rfl, hdeclare _ rfl⟩
  | nonterminal name => exact Or.inr ⟨rfl, hdeclare _ rfl⟩
  | rule spec => exact Or.inl ⟨spec, rfl⟩

theorem symbols_prefix_call (b : Builder) (c : Call) : b.symbols <+: (b.call c).2.symbols := by
  rcases call_cases b c with ⟨spec, rfl⟩ | ⟨_, e | ⟨s, x, _, hdeclare⟩⟩
  · exact List.prefix_rfl
  · exact e.symm ▸ List.prefix_rfl
  · rcases declare_eq_ok hdeclare with e | ⟨_, e⟩
    · exact e.symm ▸ List.prefix_rfl
    · rw [e]
      exact List.prefix_append _ _

theorem rules_call (b : Builder) (c : Call) :
    (b.call c).2.rules = b.rules ++ c.spec?.toList := by
  rcases call_cases b c with ⟨spec, rfl⟩ | ⟨hspec, h⟩
  · rfl
  · rw [hspec, Option.toList_none, List.append_nil]
    rcases h with e | ⟨s, x, _, hdeclare⟩
    · rw [e]
    · rcases declare_eq_ok hdeclare with e | ⟨_, e⟩
      · rw [e]
      · rw [e]
        rfl

theorem Made.call {b : Builder} (made : b.Made) (c : Call) : (b.call c).2.Made := by
  rcases call_cases b c with ⟨spec, rfl⟩ | ⟨_, e | ⟨s, x, hkind, hdeclare⟩⟩
  · exact made.rule spec
  · rw [e]
    exact made
  · exact made.declare hkind hdeclare

theorem made_after (calls : List Call) : (after calls).Made := by
  induction calls using List.reverseRecOn with
  | nil => exact .empty
  | append_singleton calls c ih =>
    rw [after_snoc]
    exact ih.call c

/-- Symbols stay where they are, so handles go on meaning what they meant. -/
theorem symbols_prefix_after {earlier calls : List Call} (h : earlier <+: calls) :
    (after earlier).symbols <+: (after calls).symbols := by
  obtain ⟨later, rfl⟩ := h
  induction later using List.reverseRecOn with
  | nil => exact (List.append_nil earlier).symm ▸ List.prefix_rfl
  | append_singleton later c ih =>
    rw [← List.append_assoc, after_snoc]
    exact ih.trans (symbols_prefix_call _ c)

/-- Rules are kept in the order they were given in. -/
theorem rules_after (calls : List Call) : (after calls).rules = given calls := by
  induction calls using List.reverseRecOn with
  | nil => rfl
  | append_singleton calls c ih =>
    rw [after_snoc, rules_call, ih, given, given, List.filterMap_append]
    cases c <;> rfl

/-! ## Building -/

/-- A declared nonterminal other than the accepting symbol: what rules can be given for. -/
def Derivable (symbols : List Symbol) (x : SymbolId) : Prop :=
  (∃ s, x.get? symbols = some s ∧ s.isNonterminal = true) ∧ x ≠ .accept

/-- What is asked of a rule. -/
structure Acceptable (symbols : List Symbol) (spec : RuleSpec) : Prop where
  left : Derivable symbols spec.left
  right : ∀ x ∈ spec.right, x.index < symbols.length ∧ x ≠ .endMarker ∧ x ≠ .accept
  bindings : ∀ binding ∈ spec.bindings, binding.1 < spec.right.length

/-- What is asked of the symbols, the rules and the start symbol of a grammar. -/
structure Buildable (symbols : List Symbol) (specs : List RuleSpec) (start : SymbolId) : Prop where
  start : Derivable symbols start
  rules : ∀ spec ∈ specs, Acceptable symbols spec
  defined : ∀ x, Derivable symbols x → ∃ spec ∈ specs, spec.left = x

theorem checkLeft_eq_ok_iff {b : Builder} {x : SymbolId} :
    b.checkLeft x = .ok () ↔ Derivable b.symbols x := by
  constructor
  · intro h
    obtain ⟨s, hs, hn, hne⟩ := checkLeft_eq_ok h
    exact ⟨⟨s, hs, hn⟩, hne⟩
  · rintro ⟨⟨s, hs, hn⟩, hne⟩
    refine bind_eq_ok.mpr ⟨s, symbol_eq_ok.mpr hs, ?_⟩
    rw [hn, bne_iff_ne.mpr hne]
    rfl

/-- The two symbols that are always there are told by what they are. -/
theorem Orderly.allowed_of_ne {b : Builder} (orderly : b.Orderly) {x : SymbolId} {s : Symbol}
    (hs : x.get? b.symbols = some s) (hend : x ≠ .endMarker) (haccept : x ≠ .accept) :
    s.isEndMarker = false ∧ s.name ≠ Symbol.acceptName := by
  obtain ⟨declared, hsymbols, hdeclared⟩ := orderly.symbols_eq
  constructor
  · have hkind : s.kind ≠ .endMarker := by
      rw [Handle.get?, hsymbols] at hs
      have hzero : x.index ≠ 0 := fun hx => hend (Handle.ext hx)
      have hone : x.index ≠ 1 := fun hx => haccept (Handle.ext hx)
      obtain ⟨i, hi⟩ : ∃ i, x.index = i + 2 := ⟨x.index - 2, by omega⟩
      rw [hi] at hs
      have hs : declared[i]? = some s := hs
      exact hdeclared s (List.mem_of_getElem? hs)
    exact beq_eq_false_iff_ne.mpr hkind
  · intro hname
    let g := Grammar.ofSymbols b.symbols
    have hx : g.name? x = some Symbol.acceptName := by
      rw [← hname]
      exact congrArg (Option.map Symbol.name) hs
    have hone : g.name? .accept = some Symbol.acceptName := by
      show (b.symbols[1]?).map Symbol.name = _
      rw [hsymbols]
      rfl
    exact haccept (Grammar.name?_injective orderly.names_nodup hx hone)

theorem Orderly.checkRight_eq_ok_iff {b : Builder} (orderly : b.Orderly) {x : SymbolId} :
    b.checkRight x = .ok () ↔ x.index < b.symbols.length ∧ x ≠ .endMarker ∧ x ≠ .accept := by
  constructor
  · intro h
    obtain ⟨s, hs, hend, haccept⟩ := checkRight_eq_ok h
    exact orderly.ne_of_allowed hs hend haccept
  · rintro ⟨hlt, hend, haccept⟩
    have hs := List.getElem?_eq_getElem hlt
    obtain ⟨hkind, hname⟩ := orderly.allowed_of_ne hs hend haccept
    refine bind_eq_ok.mpr ⟨_, symbol_eq_ok.mpr hs, if_neg ?_⟩
    rw [Bool.or_eq_true, hkind, beq_iff_eq]
    exact not_or.mpr ⟨Bool.false_ne_true, hname⟩

theorem lastBinding_snoc (bindings : List (Nat × String)) (binding : Nat × String)
    (position : Nat) : lastBinding (bindings ++ [binding]) position =
      if binding.1 = position then some binding.2 else lastBinding bindings position := by
  rw [lastBinding, List.filter_append, List.filter_singleton]
  by_cases h : binding.1 = position
  · rw [if_pos h, beq_iff_eq.mpr h, cond_true, List.getLast?_concat]
    rfl
  · rw [if_neg h, beq_eq_false_iff_ne.mpr h, cond_false, List.append_nil]
    rfl

/-- Of several bindings for a position the last one counts, and one out of range is refused. -/
theorem spreadBindings_eq_ok_iff {length : Nat} {bindings : List (Nat × String)}
    {row : List (Option String)} :
    spreadBindings length bindings = .ok row ↔
      (∀ binding ∈ bindings, binding.1 < length) ∧
        row = (List.range length).map (lastBinding bindings) := by
  induction bindings using List.reverseRecOn generalizing row with
  | nil =>
    have hnone : (List.range length).map (lastBinding []) = List.replicate length none := by
      refine List.eq_replicate_iff.mpr ⟨by simp, fun name hname => ?_⟩
      obtain ⟨_, _, rfl⟩ := List.mem_map.mp hname
      rfl
    rw [hnone]
    exact ⟨fun h => ⟨nofun, (Except.ok.inj h).symm⟩, fun h => congrArg Except.ok h.2.symm⟩
  | append_singleton bindings binding ih =>
    have hset : binding.1 < length →
        ((List.range length).map (lastBinding bindings)).set binding.1 (some binding.2) =
          (List.range length).map (lastBinding (bindings ++ [binding])) := by
      intro _
      refine List.ext_getElem (by simp) fun i _ _ => ?_
      rw [List.getElem_set, List.getElem_map, List.getElem_map, List.getElem_range,
        lastBinding_snoc]
    rw [spreadBindings, List.foldlM_append, bind_eq_ok]
    constructor
    · rintro ⟨before, hbefore, h⟩
      obtain ⟨hrange, rfl⟩ := ih.mp hbefore
      rw [List.foldlM_cons, bind_eq_ok] at h
      obtain ⟨after, hafter, h⟩ := h
      cases h
      split at hafter
      · rename_i hlt
        cases hafter
        exact ⟨List.forall_mem_append.mpr ⟨hrange, List.forall_mem_singleton.mpr hlt⟩, hset hlt⟩
      · cases hafter
    · rintro ⟨hrange, rfl⟩
      obtain ⟨hrange, hlt⟩ := List.forall_mem_append.mp hrange
      have hlt := List.forall_mem_singleton.mp hlt
      refine ⟨_, ih.mpr ⟨hrange, rfl⟩, ?_⟩
      rw [List.foldlM_cons, if_pos hlt, hset hlt]
      rfl

/-- A rule that is acceptable passes, and stands in the grammar as it was given. -/
theorem Orderly.checkRule_eq_ok_iff {b : Builder} (orderly : b.Orderly) {spec : RuleSpec}
    {rule : Rule} :
    b.checkRule spec = .ok rule ↔ Acceptable b.symbols spec ∧ spec.rule = rule := by
  constructor
  · intro h
    obtain ⟨_, hleft, h⟩ := bind_eq_ok.mp h
    obtain ⟨_, hright, h⟩ := bind_eq_ok.mp h
    obtain ⟨row, hrow, h⟩ := bind_eq_ok.mp h
    obtain ⟨hbindings, rfl⟩ := spreadBindings_eq_ok_iff.mp hrow
    cases h
    refine ⟨{ left := checkLeft_eq_ok_iff.mp hleft, right := fun x hx => ?_, bindings := hbindings },
      rfl⟩
    exact orderly.checkRight_eq_ok_iff.mp (forM_eq_ok.mp hright x hx)
  · rintro ⟨h, rfl⟩
    refine bind_eq_ok.mpr ⟨(), checkLeft_eq_ok_iff.mpr h.left, bind_eq_ok.mpr ⟨(), ?_,
      bind_eq_ok.mpr ⟨_, spreadBindings_eq_ok_iff.mpr ⟨h.bindings, rfl⟩, rfl⟩⟩⟩
    exact forM_eq_ok.mpr fun x hx => orderly.checkRight_eq_ok_iff.mpr (h.right x hx)

theorem Orderly.mapM_checkRule_eq_ok_iff {b : Builder} (orderly : b.Orderly)
    {specs : List RuleSpec} {rules : List Rule} :
    specs.mapM b.checkRule = .ok rules ↔
      (∀ spec ∈ specs, Acceptable b.symbols spec) ∧ specs.map RuleSpec.rule = rules := by
  rw [mapM_eq_ok]
  induction specs generalizing rules with
  | nil =>
    rw [List.forall₂_nil_left_iff]
    exact ⟨fun h => ⟨nofun, h.symm⟩, fun h => h.2.symm⟩
  | cons spec rest ih =>
    rw [List.forall₂_cons_left_iff, List.forall_mem_cons, List.map_cons]
    constructor
    · rintro ⟨rule, more, hrule, hmore, rfl⟩
      obtain ⟨hspec, rfl⟩ := orderly.checkRule_eq_ok_iff.mp hrule
      obtain ⟨hrest, rfl⟩ := ih.mp hmore
      exact ⟨⟨hspec, hrest⟩, rfl⟩
    · rintro ⟨⟨hspec, hrest⟩, rfl⟩
      exact ⟨_, _, orderly.checkRule_eq_ok_iff.mpr ⟨hspec, rfl⟩, ih.mpr ⟨hrest, rfl⟩, rfl⟩

section Building

variable {b : Builder} (orderly : b.Orderly) {start : SymbolId}

include orderly

/-- A grammar is made of what is buildable only, and has the tables that go with it. -/
theorem Orderly.of_build_eq_ok {g : Grammar} (h : b.build start = .ok g) :
    Buildable b.symbols b.rules start ∧
      b.Tabulates (acceptRule start :: b.rules.map RuleSpec.rule) g := by
  obtain ⟨_, hstart, h⟩ := bind_eq_ok.mp h
  obtain ⟨rules, hrules, h⟩ := bind_eq_ok.mp h
  have htabular := tabular_of_checked orderly.get?_accept hstart (checked_of_mapM_checkRule hrules)
  obtain ⟨hacceptable, rfl⟩ := orderly.mapM_checkRule_eq_ok_iff.mp hrules
  rcases htabular.tabulate_cases with ⟨_, _, _, _, _, herror⟩ | ⟨hdefined, g', hg', htables⟩
  · rw [herror] at h
    cases h
  · obtain rfl := Except.ok.inj (hg'.symm.trans h)
    refine ⟨{ start := checkLeft_eq_ok_iff.mp hstart, rules := hacceptable, defined := ?_ }, htables⟩
    rintro x ⟨⟨s, hs, hn⟩, hne⟩
    obtain ⟨rule, hrule, hleft⟩ := hdefined x s hs hn
    -- rule 0 is for the accepting symbol, so all others are defined by what was given
    rcases List.mem_cons.mp hrule with rfl | hrule
    · exact absurd hleft.symm hne
    · obtain ⟨spec, hspec, rfl⟩ := List.mem_map.mp hrule
      exact ⟨spec, hspec, hleft⟩

/-- Of what is buildable a grammar is made. -/
theorem Orderly.exists_build_of_buildable (hroom : b.symbols.length ≤ handleSpan)
    (h : Buildable b.symbols b.rules start) : ∃ g, b.build start = .ok g := by
  have hstart := checkLeft_eq_ok_iff.mpr h.start
  have hrules := orderly.mapM_checkRule_eq_ok_iff.mpr ⟨h.rules, rfl⟩
  have htabular := tabular_of_checked orderly.get?_accept hstart (checked_of_mapM_checkRule hrules)
  have hmade : ∃ g, b.tabulate (acceptRule start :: b.rules.map RuleSpec.rule) = .ok g := by
    rcases htabular.tabulate_cases with ⟨i, s, hi, hn, hno, _⟩ | ⟨_, g, hg, _⟩
    · obtain ⟨haccept, hspecs⟩ := List.forall_mem_cons.mp hno
      have hlt := Nat.lt_of_lt_of_le (List.getElem?_eq_some_iff.mp hi).1 hroom
      have hne : (⟨i, hlt⟩ : SymbolId) ≠ SymbolId.accept :=
        fun e => haccept (congrArg Handle.index e).symm
      obtain ⟨spec, hspec, hleft⟩ := h.defined ⟨i, hlt⟩ ⟨⟨s, hi, hn⟩, hne⟩
      exact absurd (congrArg Handle.index hleft) (hspecs _ (List.mem_map_of_mem hspec))
    · exact ⟨g, hg⟩
  obtain ⟨g, hg⟩ := hmade
  exact ⟨g, bind_eq_ok.mpr ⟨(), hstart, bind_eq_ok.mpr ⟨_, hrules, hg⟩⟩⟩

end Building

end Builder

namespace Grammar

/-- The rules of a symbol come in the order of the grammar. -/
theorem ascending_rulesFor {g : Grammar} (h : g.rules.length ≤ handleSpan) (x : SymbolId) :
    (g.rulesFor x).Pairwise fun r s => r.index < s.index := by
  rw [rulesFor_eq]
  have hpositions : g.rules.zipIdx.Pairwise fun a b => a.2 < b.2 := by
    refine List.pairwise_map.mp ?_
    rw [List.zipIdx_map_snd]
    exact List.pairwise_lt_range'
  refine List.pairwise_map.mpr ((hpositions.filter _).imp_of_mem fun {a b} ha hb hlt => ?_)
  have hindex : ∀ e ∈ g.rules.zipIdx.filter fun entry => entry.1.left == x,
      (Handle.ofNat e.2 : RuleId).index = e.2 := by
    intro e he
    have hget := List.mem_zipIdx_iff_getElem?.mp (List.mem_filter.mp he).1
    exact Handle.index_ofNat_of_lt
      (Nat.lt_of_lt_of_le (List.getElem?_eq_some_iff.mp hget).1 h)
  rw [hindex a ha, hindex b hb]
  exact hlt

/-- What a grammar has that was built of these symbols and rules. -/
structure Records (g : Grammar) (symbols : List Symbol) (specs : List RuleSpec)
    (start : SymbolId) : Prop where
  symbols_eq : g.symbols = symbols
  registered : Registered g.symbols g.symbolNamed?
  /-- Rule 0, and behind it the rules that were given. -/
  rules_eq : g.rules = Builder.acceptRule start :: specs.map RuleSpec.rule
  rulesFor_ascending : ∀ x, (g.rulesFor x).Pairwise fun r s => r.index < s.index
  mem_rulesFor : ∀ x r, r ∈ g.rulesFor x ↔ ∃ rule, g.rule? r = some rule ∧ rule.left = x

end Grammar

namespace Builder

/-- At each point of a history names and symbols are in bijection and mean what they meant
before, and the next call is answered accordingly.  In the end a grammar can be built exactly if
the rules that were given are acceptable and leave no nonterminal undefined; it has then all that
was declared and given, in order. -/
theorem registered_and_built (calls : List Call)
    (hsymbols : (after calls).symbols.length < handleSpan)
    (hrules : (given calls).length < handleSpan) :
    (∀ earlier, earlier <+: calls →
      Registered (after earlier).symbols (after earlier).find? ∧
        (after earlier).symbols <+: (after calls).symbols) ∧
    (∀ earlier c, earlier ++ [c] <+: calls →
      after (earlier ++ [c]) = ((after earlier).call c).2 ∧ (after earlier).Answers c) ∧
    ∀ start,
      ((∃ g, (after calls).build start = .ok g) ↔
        Buildable (after calls).symbols (given calls) start) ∧
      ∀ g, (after calls).build start = .ok g →
        g.Records (after calls).symbols (given calls) start := by
  have hlength : ∀ earlier, earlier <+: calls → (after earlier).symbols.length < handleSpan :=
    fun earlier h => Nat.lt_of_le_of_lt (symbols_prefix_after h).length_le hsymbols
  have horderly : ∀ earlier, (after earlier).Orderly := fun earlier => (made_after earlier).orderly
  have hgiven : (after calls).rules = given calls := rules_after calls
  refine ⟨fun earlier h => ⟨?_, symbols_prefix_after h⟩, fun earlier c h => ⟨after_snoc _ _, ?_⟩,
    fun start => ⟨⟨fun ⟨g, hg⟩ => ?_, fun h => ?_⟩, fun g hg => ?_⟩⟩
  · exact (horderly earlier).registered (Nat.le_of_lt (hlength earlier h))
  · have hearlier : earlier <+: calls := (List.prefix_append _ _).trans h
    exact (horderly earlier).answers (hlength earlier hearlier) c
  · exact hgiven ▸ ((horderly calls).of_build_eq_ok hg).1
  · exact (horderly calls).exists_build_of_buildable (Nat.le_of_lt hsymbols) (hgiven ▸ h)
  · obtain ⟨_, htables⟩ := (horderly calls).of_build_eq_ok hg
    rw [hgiven] at htables
    have hroom : g.rules.length ≤ handleSpan := by
      rw [htables.rules_eq, List.length_cons, List.length_map]
      exact hrules
    have hnamed : g.symbolNamed? = (after calls).find? :=
      funext fun name => congrArg (List.lookup name) htables.names_eq
    exact
      { symbols_eq := htables.symbols_eq
        registered := by
          rw [htables.symbols_eq, hnamed]
          exact (horderly calls).registered (Nat.le_of_lt hsymbols)
        rules_eq := htables.rules_eq
        rulesFor_ascending := Grammar.ascending_rulesFor hroom
        mem_rulesFor := fun x r => Grammar.mem_rulesFor_iff hroom }

/-- A rule is given before one of its symbols is declared, with two bindings for one position;
a name is declared with two kinds, and again with its own; and a reserved name is tried. -/
def forward : List Call :=
  [.nonterminal "list", .terminal "item", .terminal "list",
    .rule ⟨Handle.ofNat 2, [Handle.ofNat 2, Handle.ofNat 4, Handle.ofNat 3], 7,
      [(2, "head"), (0, "tail"), (2, "last")], none⟩,
    .nonterminal "list", .terminal "$end", .terminal "comma",
    .rule ⟨Handle.ofNat 2, [], 0, [], some "none"⟩]

theorem registered_and_built_forward :
    (after forward).symbols.length < handleSpan ∧ (given forward).length < handleSpan ∧
      Registered (after forward).symbols (after forward).find? ∧
      after (forward.take 3) = after (forward.take 2) ∧
      ∃ g, (after forward).build (Handle.ofNat 2) = .ok g ∧
        Buildable (after forward).symbols (given forward) (Handle.ofNat 2) ∧
        g.Records (after forward).symbols (given forward) (Handle.ofNat 2) ∧
        g.symbols.map Symbol.name = ["$end", "$accept", "list", "item", "comma"] ∧
        g.rules.map Rule.bindings = [[none], [some "tail", none, some "last"], []] := by
  have hsymbols : (after forward).symbols.length < handleSpan := by decide +kernel
  have hrules : (given forward).length < handleSpan := by decide
  obtain ⟨hregistered, hanswers, hbuilt⟩ := registered_and_built forward hsymbols hrules
  obtain ⟨hsnoc, hthird⟩ := hanswers (forward.take 2) (.terminal "list") ⟨forward.drop 3, rfl⟩
  have hrefused : ((after (forward.take 2)).call (.terminal "list")).1 =
      .error (.kindMismatch "list") := by
    decide +kernel
  obtain ⟨g, hg, h⟩ : ∃ g, (after forward).build (Handle.ofNat 2) = .ok g ∧
      decide (g.symbols.map Symbol.name = ["$end", "$accept", "list", "item", "comma"] ∧
        g.rules.map Rule.bindings = [[none], [some "tail", none, some "last"], []]) = true :=
    exists_ok_of_any (by decide +kernel)
  obtain ⟨hbuildable, hrecords⟩ := hbuilt (Handle.ofNat 2)
  exact ⟨hsymbols, hrules, (hregistered _ List.prefix_rfl).1,
    hsnoc.trans (hthird.refused _ hrefused), g, hg, hbuildable.mp ⟨g, hg⟩, hrecords g hg,
    of_decide_eq_true h⟩

end Builder
end ShiftReduce
