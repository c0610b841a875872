/-
What is declared on the way from definitions to a grammar.

A grammar is made in two rounds.  The first declares the defined names, the second goes
through the alternatives, declares what else is mentioned, and gives a rule for each.  Both
only add symbols, so a handle goes on meaning what it meant when it was handed out
(`getElem?_of_grown`), and whether a name is a terminal was settled before the first
declaration.  `Progress` is what every step keeps: the symbols are the names mentioned so
far, and the rules are the alternatives seen so far.

So a step can only fail over a reserved name, which is what `Proceeds` says.  The main
statement is `proceeds_builder`.
-/
import ShiftReduce.Bnf.Grammar
import ShiftReduce.Proofs.Grammar.Tables
import Mathlib.Data.List.Perm.Subperm

namespace ShiftReduce
namespace Bnf

def Alternative.names (a : Alternative) : List String := a.symbols.map Occurrence.name

def Definition.names (d : Definition) : List String :=
  d.name :: d.alternatives.flatMap Alternative.names

/-- The alternatives of a definition, each with the name that is defined. -/
def Definition.rules (d : Definition) : List (String × Alternative) :=
  d.alternatives.map fun a => (d.name, a)

theorem mem_rules_iff {definitions : List Definition} {e : String × Alternative} :
    e ∈ definitions.flatMap Definition.rules ↔
      ∃ d ∈ definitions, d.name = e.1 ∧ e.2 ∈ d.alternatives := by
  rw [List.mem_flatMap]
  refine exists_congr fun d => and_congr_right fun _ => ?_
  rw [Definition.rules, List.mem_map]
  constructor
  · rintro ⟨a, ha, rfl⟩
    exact ⟨rfl, ha⟩
  · rintro ⟨hname, ha⟩
    exact ⟨e.2, ha, Prod.ext hname rfl⟩

theorem mem_names_of_defined {definitions : List Definition} {name : String}
    (h : name ∈ definitions.map Definition.name) :
    name ∈ definitions.flatMap Definition.names := by
  obtain ⟨d, hd, rfl⟩ := List.mem_map.mp h
  exact List.mem_flatMap.mpr ⟨d, hd, List.mem_cons_self⟩

theorem mem_defined_of_rule {definitions : List Definition} {e : String × Alternative}
    (he : e ∈ definitions.flatMap Definition.rules) : e.1 ∈ definitions.map Definition.name := by
  obtain ⟨d, hd, hname, _⟩ := mem_rules_iff.mp he
  exact hname ▸ List.mem_map_of_mem hd

theorem mem_names_of_rule {definitions : List Definition} {e : String × Alternative}
    (he : e ∈ definitions.flatMap Definition.rules) {name : String} (h : name ∈ e.2.names) :
    name ∈ definitions.flatMap Definition.names := by
  obtain ⟨d, hd, _, ha⟩ := mem_rules_iff.mp he
  have hmem : name ∈ d.names := List.mem_cons_of_mem _ (List.mem_flatMap.mpr ⟨e.2, ha, h⟩)
  exact List.mem_flatMap.mpr ⟨d, hd, hmem⟩

/-- The symbol a name stands for: what is defined is a nonterminal. -/
def symbolOf (defined : List String) (name : String) : Symbol :=
  ⟨name, if defined.contains name then .nonterminal else .terminal⟩

theorem symbolOf_of_mem {defined : List String} {name : String} (h : name ∈ defined) :
    symbolOf defined name = ⟨name, .nonterminal⟩ := by
  rw [symbolOf, if_pos (List.contains_iff_mem.mpr h)]

theorem symbolOf_of_not_mem {defined : List String} {name : String} (h : name ∉ defined) :
    symbolOf defined name = ⟨name, .terminal⟩ := by
  rw [symbolOf, if_neg fun hcontains => h (List.contains_iff_mem.mp hcontains)]

/-! ## Steps that fail over reserved names only -/

/-- The step has an answer of this kind, or else one of these names is reserved and it fails
over that. -/
def Proceeds {α : Type} (total : List String) (x : Except GrammarError α) (P : α → Prop) : Prop :=
  (∃ a, x = .ok a ∧ P a) ∨
    ∃ n ∈ total, Symbol.isReserved n = true ∧ x = .error (.reservedName n)

namespace Proceeds

variable {α β : Type} {total : List String} {x : Except GrammarError α} {P : α → Prop}

theorem ok {a : α} (h : P a) : Proceeds total (.ok a) P := Or.inl ⟨a, rfl, h⟩

theorem mono {Q : α → Prop} (h : Proceeds total x P) (hPQ : ∀ a, P a → Q a) :
    Proceeds total x Q :=
  h.imp_left fun ⟨a, ha, hP⟩ => ⟨a, ha, hPQ a hP⟩

theorem bind {f : α → Except GrammarError β} {Q : β → Prop} (h : Proceeds total x P)
    (hf : ∀ a, P a → Proceeds total (f a) Q) : Proceeds total (x >>= f) Q := by
  rcases h with ⟨a, rfl, hP⟩ | ⟨n, hn, hreserved, rfl⟩
  · exact hf a hP
  · exact Or.inr ⟨n, hn, hreserved, rfl⟩

/-- A list is gone through one by one, and `P` knows how far it has been gone through. -/
theorem foldlM {f : β → α → Except GrammarError β} {xs : List α} (P : List α → β → Prop)
    (step : ∀ (done : List α) (x : α) (b : β), x ∈ xs → P done b →
      Proceeds total (f b x) (P (done ++ [x]))) {b : β} (hb : P [] b) :
    Proceeds total (xs.foldlM f b) (P xs) := by
  have from_here : ∀ (rest done : List α) (b : β), (∀ x ∈ rest, x ∈ xs) → P done b →
      Proceeds total (rest.foldlM f b) (P (done ++ rest)) := by
    intro rest
    induction rest with
    | nil =>
      intro done b _ hb
      rw [List.append_nil]
      exact ok hb
    | cons x rest ih =>
      intro done b hmem hb
      obtain ⟨hx, hrest⟩ := List.forall_mem_cons.mp hmem
      rw [List.foldlM_cons]
      refine (step done x b hx hb).bind fun c hc => ?_
      have h := ih (done ++ [x]) c hrest hc
      rw [List.append_assoc] at h
      exact h
  exact from_here xs [] b (fun _ h => h) hb

end Proceeds

/-! ## Symbols -/

/-- A handle means the same after symbols have been added. -/
theorem getElem?_of_grown {symbols grown : List Symbol} (h : symbols <+: grown) {x : SymbolId}
    {s : Symbol} (hx : x.get? symbols = some s) : x.get? grown = some s := by
  obtain ⟨more, rfl⟩ := h
  have hlt := (List.getElem?_eq_some_iff.mp hx).1
  exact (List.getElem?_append_left hlt).trans hx

/-- What stands at a position has a handle, if there is one for every position. -/
theorem exists_handle {symbols : List Symbol} (hlength : symbols.length ≤ handleSpan) {i : Nat}
    {s : Symbol} (h : symbols[i]? = some s) : ∃ x : SymbolId, x.index = i ∧
      x.get? symbols = some s :=
  ⟨⟨i, Nat.lt_of_lt_of_le (List.getElem?_eq_some_iff.mp h).1 hlength⟩, rfl, h⟩

/-- The symbols are those of the names mentioned so far, and the two that are always there. -/
structure Declared (defined mentioned : List String) (symbols : List Symbol) : Prop where
  symbols_eq : ∃ names : List String, names.Nodup ∧ (∀ n, n ∈ names ↔ n ∈ mentioned) ∧
    symbols = Builder.empty.symbols ++ names.map (symbolOf defined)
  allowed : ∀ n ∈ mentioned, Symbol.isReserved n = false

namespace Declared

variable {defined mentioned total : List String} {symbols : List Symbol}
  (h : Declared defined mentioned symbols)

include h

theorem mem_iff {s : Symbol} : s ∈ symbols ↔
    s ∈ Builder.empty.symbols ∨ ∃ n ∈ mentioned, symbolOf defined n = s := by
  obtain ⟨names, _, hnames, rfl⟩ := h.symbols_eq
  rw [List.mem_append, List.mem_map]
  exact or_congr_right (exists_congr fun n => and_congr_left fun _ => hnames n)

theorem names_nodup : (symbols.map Symbol.name).Nodup := by
  obtain ⟨names, hnodup, hnames, rfl⟩ := h.symbols_eq
  have hmap : (names.map (symbolOf defined)).map Symbol.name = names := by
    rw [List.map_map]
    exact List.map_id names
  rw [List.map_append, hmap, List.nodup_append]
  refine ⟨by decide, hnodup, fun x hx y hy e => ?_⟩
  have hallowed := h.allowed y ((hnames y).mp hy)
  have hreserved : ∀ x ∈ Builder.empty.symbols.map Symbol.name, Symbol.isReserved x = true := by
    decide
  rw [← e, hreserved x hx] at hallowed
  cases hallowed

/-- An allowed name is that of one symbol. -/
theorem eq_symbolOf {s : Symbol} (hs : s ∈ symbols) (hallowed : Symbol.isReserved s.name = false) :
    s.name ∈ mentioned ∧ s = symbolOf defined s.name := by
  rcases h.mem_iff.mp hs with hs | ⟨n, hn, rfl⟩
  · have hreserved : ∀ s ∈ Builder.empty.symbols, Symbol.isReserved s.name = true := by decide
    rw [hreserved s hs] at hallowed
    cases hallowed
  · exact ⟨hn, rfl⟩

theorem length_le (hmentioned : ∀ n ∈ mentioned, n ∈ total) :
    symbols.length ≤ total.eraseDups.length + 2 := by
  obtain ⟨names, hnodup, hnames, rfl⟩ := h.symbols_eq
  have hsub : names ⊆ total.eraseDups := fun n hn =>
    List.mem_eraseDups.mpr (hmentioned n ((hnames n).mp hn))
  have hle := hnodup.length_le_of_subset hsub
  rw [List.length_append, List.length_map]
  show 2 + names.length ≤ _
  omega

theorem snoc_of_mem {name : String} (hname : name ∈ mentioned) :
    Declared defined (mentioned ++ [name]) symbols := by
  have hmem : ∀ n, n ∈ mentioned ++ [name] ↔ n ∈ mentioned := fun n => by
    rw [List.mem_append, List.mem_singleton]
    exact or_iff_left_of_imp fun e => e ▸ hname
  obtain ⟨names, hnodup, hnames, hsymbols⟩ := h.symbols_eq
  exact
    { symbols_eq := ⟨names, hnodup, fun n => (hnames n).trans (hmem n).symm, hsymbols⟩
      allowed := fun n hn => h.allowed n ((hmem n).mp hn) }

theorem snoc {name : String} (hname : name ∉ mentioned)
    (hallowed : Symbol.isReserved name = false) :
    Declared defined (mentioned ++ [name]) (symbols ++ [symbolOf defined name]) := by
  obtain ⟨names, hnodup, hnames, rfl⟩ := h.symbols_eq
  refine { symbols_eq := ⟨names ++ [name], ?_, fun n => ?_, ?_⟩, allowed := fun n hn => ?_ }
  · rw [List.nodup_append]
    refine ⟨hnodup, List.pairwise_singleton _ _, fun n hn m hm e => ?_⟩
    rw [List.mem_singleton.mp hm] at e
    exact hname ((hnames name).mp (e ▸ hn))
  · rw [List.mem_append, List.mem_append, hnames n]
  · rw [List.map_append, List.append_assoc]
    rfl
  · rcases List.mem_append.mp hn with hn | hn
    · exact h.allowed n hn
    · rw [List.mem_singleton.mp hn]
      exact hallowed

end Declared

/-! ## Rules -/

/-- The rule that is given for an alternative, in terms of what its handles mean. -/
structure Given (defined : List String) (symbols : List Symbol) (spec : RuleSpec) (left : String)
    (a : Alternative) : Prop where
  left : spec.left.get? symbols = some (symbolOf defined left)
  right : List.Forall₂ (fun (x : SymbolId) o => x.get? symbols = some (symbolOf defined o.name))
    spec.right a.symbols
  priority : spec.priority = a.priority
  bindings : spec.bindings = a.bindings
  action : spec.action = none

theorem Given.mono {defined : List String} {symbols grown : List Symbol} {spec : RuleSpec}
    {left : String} {a : Alternative} (h : Given defined symbols spec left a)
    (hgrown : symbols <+: grown) : Given defined grown spec left a :=
  { h with
    left := getElem?_of_grown hgrown h.left
    right := h.right.imp fun _ _ hx => getElem?_of_grown hgrown hx }

/-- A builder that has been told of these names, out of all that there are, and of these
alternatives. -/
structure Progress (total defined mentioned : List String) (as : List (String × Alternative))
    (b : Builder) : Prop where
  known : ∀ n ∈ mentioned, n ∈ total
  declared : Declared defined mentioned b.symbols
  names_eq : b.names = Symbol.naming b.symbols
  given : List.Forall₂ (fun spec e => Given defined b.symbols spec e.1 e.2) b.rules as

theorem Progress.empty (total defined : List String) : Progress total defined [] [] .empty where
  known := nofun
  declared :=
    { symbols_eq := ⟨[], List.nodup_nil, fun _ => Iff.rfl, rfl⟩
      allowed := nofun }
  names_eq := rfl
  given := .nil

section Steps

variable {total defined mentioned : List String} {as : List (String × Alternative)} {b : Builder}
  (hroom : total.eraseDups.length + 2 ≤ handleSpan)

include hroom

/-- A name is declared with its kind, or was before. -/
theorem proceeds_declare {name : String} (hname : name ∈ total)
    (h : Progress total defined mentioned as b) :
    Proceeds total (b.declare name (symbolOf defined name).kind) fun r =>
      Progress total defined (mentioned ++ [name]) as r.2 ∧ b.symbols <+: r.2.symbols ∧
        r.1.get? r.2.symbols = some (symbolOf defined name) := by
  have hknown : ∀ n ∈ mentioned ++ [name], n ∈ total :=
    List.forall_mem_append.mpr ⟨h.known, List.forall_mem_singleton.mpr hname⟩
  by_cases hreserved : Symbol.isReserved name = true
  · rw [Builder.declare, if_pos hreserved]
    exact Or.inr ⟨name, hname, hreserved, rfl⟩
  · rw [Bool.not_eq_true] at hreserved
    have hlength := h.declared.length_le h.known
    cases hfind : b.find? name with
    | some id =>
      have hfound := hfind
      rw [Builder.find?, h.names_eq] at hfound
      obtain ⟨i, s, hs, rfl, rfl⟩ := Symbol.of_lookup_naming hfound
      have hlt := (List.getElem?_eq_some_iff.mp hs).1
      obtain ⟨hmem, hsymbol⟩ := h.declared.eq_symbolOf (List.mem_of_getElem? hs) hreserved
      have hget : (Handle.ofNat i : SymbolId).get? b.symbols = some (symbolOf defined s.name) := by
        rw [Handle.get?, Handle.index_ofNat_of_lt (by omega), ← hsymbol]
        exact hs
      rw [Builder.declare_of_found hreserved hfind hget, if_pos rfl]
      exact .ok ⟨⟨hknown, h.declared.snoc_of_mem hmem, h.names_eq, h.given⟩, List.prefix_rfl, hget⟩
    | none =>
      rw [Builder.declare_of_fresh hreserved hfind]
      have hfresh : name ∉ mentioned := by
        intro hmem
        have hs := h.declared.mem_iff.mpr (Or.inr ⟨name, hmem, rfl⟩)
        rw [Builder.find?, h.names_eq, Symbol.lookup_naming_eq_none_iff] at hfind
        exact hfind _ hs rfl
      have hgrown : b.symbols <+: b.symbols ++ [symbolOf defined name] := List.prefix_append _ _
      have hdeclared := h.declared.snoc hfresh hreserved
      have hlt : b.symbols.length < handleSpan := by
        have := hdeclared.length_le hknown
        rw [List.length_append, List.length_singleton] at this
        omega
      have hnaming : ((b.push (symbolOf defined name)).2).names =
          Symbol.naming (b.symbols ++ [symbolOf defined name]) := by
        rw [Symbol.naming_snoc, ← h.names_eq]
        rfl
      refine .ok ⟨⟨hknown, hdeclared, hnaming, ?_⟩, hgrown, Handle.get?_push hlt _⟩
      exact h.given.imp fun _ _ hspec => hspec.mono hgrown

theorem proceeds_declareOccurrences {os : List Occurrence}
    (hos : ∀ o ∈ os, o.name ∈ total) (h : Progress total defined mentioned as b) :
    Proceeds total (declareOccurrences defined os b) fun r =>
      Progress total defined (mentioned ++ os.map Occurrence.name) as r.2 ∧
        b.symbols <+: r.2.symbols ∧
        List.Forall₂ (fun (x : SymbolId) o => x.get? r.2.symbols = some (symbolOf defined o.name))
          r.1 os := by
  induction os generalizing mentioned b with
  | nil =>
    rw [declareOccurrences, List.map_nil, List.append_nil]
    exact .ok ⟨h, List.prefix_rfl, .nil⟩
  | cons o rest ih =>
    obtain ⟨ho, hrest⟩ := List.forall_mem_cons.mp hos
    rw [declareOccurrences]
    refine (proceeds_declare hroom ho h).bind fun r₁ hr₁ => ?_
    obtain ⟨h₁, hgrown₁, hid⟩ := hr₁
    refine (ih hrest h₁).bind fun r₂ hr₂ => ?_
    obtain ⟨h₂, hgrown₂, hids⟩ := hr₂
    rw [List.append_assoc] at h₂
    exact .ok ⟨h₂, hgrown₁.trans hgrown₂, .cons (getElem?_of_grown hgrown₂ hid) hids⟩

/-- An alternative adds one rule at the end. -/
theorem proceeds_addAlternative {name : String} {left : SymbolId} {a : Alternative}
    (ha : ∀ n ∈ a.names, n ∈ total) (h : Progress total defined mentioned as b)
    (hleft : left.get? b.symbols = some (symbolOf defined name)) :
    Proceeds total (addAlternative defined left b a) fun b' =>
      Progress total defined (mentioned ++ a.names) (as ++ [(name, a)]) b' ∧
        left.get? b'.symbols = some (symbolOf defined name) := by
  have hos : ∀ o ∈ a.symbols, o.name ∈ total := fun o ho => ha _ (List.mem_map_of_mem ho)
  refine (proceeds_declareOccurrences hroom hos h).bind fun (right, b₁) ⟨h₁, hgrown, hright⟩ => ?_
  have hleft₁ := getElem?_of_grown hgrown hleft
  refine .ok ⟨{ h₁ with given := List.rel_append h₁.given (.cons ?_ .nil) }, hleft₁⟩
  exact { left := hleft₁, right := hright, priority := rfl, bindings := rfl, action := rfl }

theorem proceeds_nonterminal {name : String} (hname : name ∈ total) (hdefined : name ∈ defined)
    (h : Progress total defined mentioned as b) :
    Proceeds total (b.nonterminal name) fun r =>
      Progress total defined (mentioned ++ [name]) as r.2 ∧
        r.1.get? r.2.symbols = some (symbolOf defined name) := by
  have hdeclare := proceeds_declare hroom hname h
  rw [symbolOf_of_mem hdefined] at hdeclare ⊢
  exact hdeclare.mono fun _ ⟨h₁, _, hid⟩ => ⟨h₁, hid⟩

/-- A definition adds the rules of its alternatives in their order. -/
theorem proceeds_addDefinition {d : Definition} (hdefined : d.name ∈ defined)
    (hd : ∀ n ∈ d.names, n ∈ total) (h : Progress total defined mentioned as b) :
    Proceeds total (addDefinition defined b d)
      (Progress total defined (mentioned ++ d.names) (as ++ d.rules)) := by
  obtain ⟨hname, halternatives⟩ := List.forall_mem_cons.mp hd
  refine (proceeds_nonterminal hroom hname hdefined h).bind fun (left, b₁) ⟨h₁, hleft⟩ => ?_
  let P : List Alternative → Builder → Prop := fun done b =>
    Progress total defined (mentioned ++ [d.name] ++ done.flatMap Alternative.names)
        (as ++ done.map fun a => (d.name, a)) b ∧
      left.get? b.symbols = some (symbolOf defined d.name)
  have hbegin : P [] b₁ := by
    simp only [P, List.flatMap_nil, List.map_nil, List.append_nil]
    exact ⟨h₁, hleft⟩
  have hstep : ∀ done a b, a ∈ d.alternatives → P done b →
      Proceeds total (addAlternative defined left b a) (P (done ++ [a])) := by
    rintro done a b ha ⟨hb, hleft⟩
    have hnames : ∀ n ∈ a.names, n ∈ total := fun n hn =>
      halternatives n (List.mem_flatMap.mpr ⟨a, ha, hn⟩)
    have hadd := proceeds_addAlternative hroom hnames hb hleft
    simp only [P, List.append_assoc, List.flatMap_append, List.flatMap_singleton, List.map_append,
      List.map_singleton] at hadd ⊢
    exact hadd
  refine (Proceeds.foldlM P hstep hbegin).mono fun b₂ ⟨h₂, _⟩ => ?_
  rw [List.append_assoc] at h₂
  exact h₂

/-- The two rounds over the definitions. -/
theorem proceeds_rounds {definitions : List Definition}
    (hdefined : ∀ d ∈ definitions, d.name ∈ defined)
    (hnames : ∀ n ∈ definitions.flatMap Definition.names, n ∈ total) :
    Proceeds total (do
        let b ← declareDefined definitions .empty
        definitions.foldlM (addDefinition defined) b)
      (Progress total defined
        (definitions.map Definition.name ++ definitions.flatMap Definition.names)
        (definitions.flatMap Definition.rules)) := by
  have hd : ∀ d ∈ definitions, ∀ n ∈ d.names, n ∈ total := fun d hd n hn =>
    hnames n (List.mem_flatMap.mpr ⟨d, hd, hn⟩)
  have hfirst : Proceeds total (declareDefined definitions .empty)
      (Progress total defined (definitions.map Definition.name) []) := by
    refine Proceeds.foldlM (fun done b => Progress total defined (done.map Definition.name) [] b)
      (fun done d b hmem hb => ?_) (.empty total defined)
    have hname : d.name ∈ total := hd d hmem _ List.mem_cons_self
    refine (proceeds_nonterminal hroom hname (hdefined d hmem) hb).bind fun (_, b₁) ⟨h₁, _⟩ => ?_
    rw [List.map_append, List.map_singleton]
    exact .ok h₁
  refine hfirst.bind fun b₁ h₁ => ?_
  refine Proceeds.foldlM (fun done b => Progress total defined
    (definitions.map Definition.name ++ done.flatMap Definition.names)
    (done.flatMap Definition.rules) b) ?_ ?_
  · intro done d b hmem hb
    have hstep := proceeds_addDefinition hroom (hdefined d hmem) (hd d hmem) hb
    simp only [List.append_assoc, List.flatMap_append, List.flatMap_singleton] at hstep ⊢
    exact hstep
  · rw [List.flatMap_nil, List.append_nil]
    exact h₁

end Steps

/-- All that is done before the grammar is built.  By then every name has been mentioned. -/
theorem proceeds_builder {definitions : List Definition} {first : Definition}
    (hroom : (definitions.flatMap Definition.names).eraseDups.length + 2 ≤ handleSpan)
    (hfirst : first ∈ definitions) :
    Proceeds (definitions.flatMap Definition.names) (do
        let b ← declareDefined definitions .empty
        let b ← definitions.foldlM (addDefinition (definitions.map Definition.name)) b
        b.nonterminal first.name)
      fun r => ∃ mentioned, (∀ n, n ∈ mentioned ↔ n ∈ definitions.flatMap Definition.names) ∧
        Progress (definitions.flatMap Definition.names) (definitions.map Definition.name) mentioned
          (definitions.flatMap Definition.rules) r.2 ∧
        r.1.get? r.2.symbols = some (symbolOf (definitions.map Definition.name) first.name) := by
  have hdefined : first.name ∈ definitions.map Definition.name := List.mem_map_of_mem hfirst
  rw [← bind_assoc]
  refine (proceeds_rounds hroom (fun d hd => List.mem_map_of_mem hd) (fun _ hn => hn)).bind
    fun b hb => ?_
  refine (proceeds_nonterminal hroom (mem_names_of_defined hdefined) hdefined hb).mono
    fun _ ⟨h, hstart⟩ => ⟨_, fun n => ⟨h.known n, fun hn => ?_⟩, h, hstart⟩
  exact List.mem_append_left _ (List.mem_append_right _ hn)

end Bnf
end ShiftReduce
