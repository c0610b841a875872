/-
The tables of a grammar.

A grammar answers from tables that were filled while it was built: symbols under their
names, rules under their left sides, for each symbol the terminals it can begin with.
Here the tables are read.  `lookup_naming_eq_some_iff` says what stands under a name,
`Grammar.rulesFor_eq` what stands in the row of a symbol, and the lemmas on `vanishing`
and `beginnings` that filling never goes past the end of a table, so that what was
filled are the sets of `nullableSymbols` and `firstTable`.

Rows are filled by a fold, and the lemma on the fold speaks of any rows to start from:
each row keeps what it has and gets the rest behind it.
-/
import ShiftReduce.Grammar.Builder
import ShiftReduce.Proofs.Outcome
import Mathlib.Data.List.Nodup

namespace ShiftReduce

/-! ## Names -/

/-- Where no name stands twice, what is found under a name is what stands there. -/
theorem lookup_eq_some_iff_mem {α : Type} {entries : List (String × α)}
    (h : (entries.map Prod.fst).Nodup) {name : String} {x : α} :
    entries.lookup name = some x ↔ (name, x) ∈ entries := by
  induction entries with
  | nil => exact iff_of_false nofun List.not_mem_nil
  | cons entry rest ih =>
    obtain ⟨other, y⟩ := entry
    rw [List.map_cons, List.nodup_cons] at h
    rw [List.lookup_cons, List.mem_cons]
    by_cases hname : name = other
    · subst hname
      rw [beq_self_eq_true, Prod.mk.injEq]
      have hnot : (name, x) ∉ rest := fun hmem => h.1 (List.mem_map.mpr ⟨_, hmem, rfl⟩)
      refine ⟨fun e => Or.inl ⟨rfl, (Option.some.inj e).symm⟩, ?_⟩
      rintro (⟨_, rfl⟩ | hmem)
      · rfl
      · exact absurd hmem hnot
    · rw [beq_eq_false_iff_ne.mpr hname]
      exact (ih h.2).trans ⟨Or.inr, fun hmem => hmem.resolve_left fun e => hname (congrArg Prod.fst e)⟩

namespace Symbol

/-- The name table of some symbols, the last of them first. -/
def naming (symbols : List Symbol) : List (String × SymbolId) :=
  (symbols.zipIdx.map fun entry => (entry.1.name, Handle.ofNat entry.2)).reverse

theorem naming_snoc (symbols : List Symbol) (s : Symbol) :
    naming (symbols ++ [s]) = (s.name, Handle.ofNat symbols.length) :: naming symbols := by
  simp [naming, List.zipIdx_append]

theorem map_fst_naming (symbols : List Symbol) :
    (naming symbols).map Prod.fst = (symbols.map Symbol.name).reverse := by
  have hzip : symbols.zipIdx.map (Symbol.name ∘ Prod.fst) = symbols.map Symbol.name := by
    rw [← List.map_map, List.zipIdx_map_fst]
  rw [naming, List.map_reverse, List.map_map]
  exact congrArg List.reverse hzip

theorem mem_naming {symbols : List Symbol} {name : String} {x : SymbolId} :
    (name, x) ∈ naming symbols ↔
      ∃ (i : Nat) (s : Symbol), symbols[i]? = some s ∧ s.name = name ∧ Handle.ofNat i = x := by
  rw [naming, List.mem_reverse, List.mem_map]
  constructor
  · rintro ⟨⟨s, i⟩, hmem, e⟩
    cases e
    exact ⟨i, s, List.mem_zipIdx_iff_getElem?.mp hmem, rfl, rfl⟩
  · rintro ⟨i, s, hs, rfl, rfl⟩
    exact ⟨(s, i), List.mem_zipIdx_iff_getElem?.mpr hs, rfl⟩

variable {symbols : List Symbol}

/-- What is found under a name has this name. -/
theorem of_lookup_naming {name : String} {x : SymbolId} (h : (naming symbols).lookup name = some x) :
    ∃ (i : Nat) (s : Symbol), symbols[i]? = some s ∧ s.name = name ∧ Handle.ofNat i = x := by
  obtain ⟨before, after, e, _⟩ := List.lookup_eq_some_iff.mp h
  exact mem_naming.mp (e ▸ List.mem_append_right before List.mem_cons_self)

/-- As long as names are apart and places have handles, a name leads to where it stands. -/
theorem lookup_naming_eq_some_iff (hnames : (symbols.map Symbol.name).Nodup)
    (hroom : symbols.length ≤ handleSpan) {name : String} {x : SymbolId} :
    (naming symbols).lookup name = some x ↔ ∃ s, x.get? symbols = some s ∧ s.name = name := by
  rw [lookup_eq_some_iff_mem, mem_naming]
  · constructor
    · rintro ⟨i, s, hs, hname, rfl⟩
      have hlt := (List.getElem?_eq_some_iff.mp hs).1
      refine ⟨s, ?_, hname⟩
      rw [Handle.get?, Handle.index_ofNat_of_lt (Nat.lt_of_lt_of_le hlt hroom)]
      exact hs
    · rintro ⟨s, hs, hname⟩
      exact ⟨x.index, s, hs, hname, Handle.ofNat_index x⟩
  · rw [map_fst_naming, List.nodup_reverse]
    exact hnames

theorem lookup_naming_eq_none_iff {name : String} :
    (naming symbols).lookup name = none ↔ ∀ s ∈ symbols, s.name ≠ name := by
  rw [List.lookup_eq_none_iff]
  constructor
  · intro h s hs e
    obtain ⟨i, hi⟩ := List.mem_iff_getElem?.mp hs
    have hne := h (s.name, Handle.ofNat i) (mem_naming.mpr ⟨i, s, hi, rfl, rfl⟩)
    rw [bne_iff_ne] at hne
    exact hne e.symm
  · rintro h ⟨other, x⟩ hmem
    obtain ⟨i, s, hs, rfl, _⟩ := mem_naming.mp hmem
    rw [bne_iff_ne]
    exact fun e => h s (List.mem_of_getElem? hs) e.symm

end Symbol

/-! ## Rules under their left sides -/

/-- The rules among some numbered ones that have their left side at a place, in order. -/
def filedUnder (place : Nat) (entries : List (Rule × Nat)) : List RuleId :=
  (entries.filter fun entry => entry.1.left.index == place).map fun entry => Handle.ofNat entry.2

theorem fileRule_eq_ok {rows rows' : List (List RuleId)} {entry : Rule × Nat}
    (h : fileRule rows entry = .ok rows') :
    rows'.length = rows.length ∧ entry.1.left.index < rows.length ∧
      ∀ place, rows'[place]?.getD [] = rows[place]?.getD [] ++ filedUnder place [entry] := by
  unfold fileRule at h
  split at h
  · rename_i row hrow
    cases h
    obtain ⟨hlt, hget⟩ := List.getElem?_eq_some_iff.mp hrow
    refine ⟨List.length_set, hlt, fun place => ?_⟩
    rw [filedUnder, List.filter_singleton]
    by_cases hplace : entry.1.left.index = place
    · subst hplace
      rw [List.getElem?_set_self hlt, hrow, beq_self_eq_true]
      rfl
    · rw [List.getElem?_set_ne hplace, beq_eq_false_iff_ne.mpr hplace]
      exact (List.append_nil _).symm
  · cases h

/-- Filing leaves in each row what is there, and puts behind it what belongs there. -/
theorem foldlM_fileRule_eq_ok {entries : List (Rule × Nat)} {rows rows' : List (List RuleId)}
    (h : entries.foldlM fileRule rows = .ok rows') :
    rows'.length = rows.length ∧ (∀ entry ∈ entries, entry.1.left.index < rows.length) ∧
      ∀ place, rows'[place]?.getD [] = rows[place]?.getD [] ++ filedUnder place entries := by
  induction entries generalizing rows with
  | nil =>
    cases h
    exact ⟨rfl, nofun, fun place => (List.append_nil _).symm⟩
  | cons entry rest ih =>
    rw [List.foldlM_cons] at h
    obtain ⟨between, hbetween, h⟩ := bind_eq_ok.mp h
    obtain ⟨hlength, hlt, hfirst⟩ := fileRule_eq_ok hbetween
    obtain ⟨hlength', hlt', hrest⟩ := ih h
    refine ⟨hlength'.trans hlength, List.forall_mem_cons.mpr ⟨hlt, hlength ▸ hlt'⟩, fun place => ?_⟩
    rw [hrest, hfirst, List.append_assoc, filedUnder, filedUnder, filedUnder, ← List.map_append,
      ← List.filter_append, List.singleton_append]

theorem getElem?_fileRules {count : Nat} {rules : List Rule} {rows : List (List RuleId)}
    (h : fileRules count rules = .ok rows) (place : Nat) :
    rows[place]?.getD [] = filedUnder place rules.zipIdx := by
  have hempty : (List.replicate count ([] : List RuleId))[place]?.getD [] = [] := by
    rw [List.getElem?_replicate]
    split <;> rfl
  rw [(foldlM_fileRule_eq_ok h).2.2, hempty, List.nil_append]

theorem length_fileRules {count : Nat} {rules : List Rule} {rows : List (List RuleId)}
    (h : fileRules count rules = .ok rows) : rows.length = count :=
  (foldlM_fileRule_eq_ok h).1.trans List.length_replicate

/-- Rules are filed as long as there is a row for each left side. -/
theorem exists_fileRules_ok {count : Nat} {rules : List Rule}
    (h : ∀ rule ∈ rules, rule.left.index < count) : ∃ rows, fileRules count rules = .ok rows := by
  refine exists_foldlM_ok (fun rows => rows.length = count) (fun entry hentry rows hrows => ?_)
    List.length_replicate
  have hlt : entry.1.left.index < rows.length :=
    hrows ▸ h entry.1 (List.fst_mem_of_mem_zipIdx hentry)
  refine ⟨rows.set entry.1.left.index (rows[entry.1.left.index] ++ [Handle.ofNat entry.2]), ?_,
    List.length_set.trans hrows⟩
  rw [fileRule, List.getElem?_eq_getElem hlt]

/-- Filing looks at left sides alone. -/
theorem fileRules_map {f : Rule → Rule} (h : ∀ rule, (f rule).left = rule.left) (count : Nat)
    (rules : List Rule) : fileRules count (rules.map f) = fileRules count rules := by
  rw [fileRules, fileRules, List.zipIdx_map, List.foldlM_map]
  congr 1
  funext rows entry
  simp only [fileRule, Prod.map, h, id]

namespace Grammar

/-- The rules of a symbol are the ones with the symbol on the left, in order. -/
theorem rulesFor_eq (g : Grammar) (x : SymbolId) :
    g.rulesFor x = (g.rules.zipIdx.filter fun entry => entry.1.left == x).map
      fun entry => Handle.ofNat entry.2 := by
  rw [rulesFor, getElem?_fileRules g.filed, filedUnder]
  congr 2
  funext entry
  rw [Bool.eq_iff_iff, beq_iff_eq, beq_iff_eq]
  exact ⟨Handle.ext, congrArg Handle.index⟩

end Grammar

/-- Symbols alone, to speak of their names before there are rules. -/
def Grammar.ofSymbols (symbols : List Symbol) : Grammar :=
  { symbols, names := [], rules := [], rulesByLeft := List.replicate symbols.length [], filed := rfl,
    nullable := ∅, first := [] }

/-! ## First sets -/

/-- A table with an entry for all that can stand at the front is read without a gap. -/
theorem firstOfSequence?_eq_some {nullable : SymbolSet} {table : List SymbolSet}
    {xs : List SymbolId} (h : ∀ x ∈ leadingSymbols nullable xs, x.index < table.length) :
    firstOfSequence? nullable table xs = some (firstOfSequence nullable table xs) := by
  rw [firstOfSequence?, firstOfSequence]
  generalize (∅ : SymbolSet) = acc
  generalize leadingSymbols nullable xs = leading at h
  induction leading generalizing acc with
  | nil => rfl
  | cons x rest ih =>
    obtain ⟨hx, hrest⟩ := List.forall_mem_cons.mp h
    rw [List.foldlM_cons, List.getElem?_eq_getElem hx, List.foldl_cons, setAt,
      List.getElem?_eq_getElem hx]
    exact ih _ hrest

namespace Builder

theorem symbol_eq_ok {b : Builder} {x : SymbolId} {s : Symbol} :
    b.symbol x = .ok s ↔ b.symbols[x.index]? = some s := by
  unfold symbol Handle.get?
  cases b.symbols[x.index]? with
  | none =>
    refine ⟨fun h => ?_, fun h => ?_⟩
    · cases h
    · cases h
  | some s' =>
    refine ⟨fun h => ?_, fun h => ?_⟩
    · cases h
      rfl
    · cases h
      rfl

/-- What becomes of a declaration under a name that leads somewhere. -/
theorem declare_of_found {b : Builder} {name : String} (hreserved : Symbol.isReserved name = false)
    {x : SymbolId} (hfind : b.find? name = some x) {s : Symbol} (hs : x.get? b.symbols = some s)
    (kind : SymbolKind) :
    b.declare name kind = if s.kind = kind then .ok (x, b) else .error (.kindMismatch name) := by
  rw [declare, hreserved, hfind]
  show (b.symbol x >>= _) = _
  rw [symbol_eq_ok.mpr hs]
  rfl

/-- What becomes of a declaration under a name that leads nowhere. -/
theorem declare_of_fresh {b : Builder} {name : String} (hreserved : Symbol.isReserved name = false)
    (hfind : b.find? name = none) (kind : SymbolKind) :
    b.declare name kind = .ok (b.push ⟨name, kind⟩) := by
  rw [declare, hreserved, hfind]
  rfl

/-- The tables have a place for every symbol of the rules, and what is derived are
nonterminals. -/
structure Tabular (b : Builder) (rules : List Rule) : Prop where
  left : ∀ rule ∈ rules, ∃ s, b.symbols[rule.left.index]? = some s ∧ s.isNonterminal = true
  right : ∀ rule ∈ rules, ∀ x ∈ rule.right, x.index < b.symbols.length

section Filling

variable {b : Builder}

/-- The symbols known to vanish are nonterminals. -/
def Derived (b : Builder) (known : SymbolSet) : Prop :=
  ∀ x ∈ known, ∃ s, b.symbols[x.index]? = some s ∧ s.isNonterminal = true

theorem vanishes_eq_ok {known : SymbolSet} (hknown : b.Derived known) {xs : List SymbolId}
    (hxs : ∀ x ∈ xs, x.index < b.symbols.length) :
    b.vanishes known xs = .ok (xs.all known.contains) := by
  induction xs with
  | nil => rfl
  | cons x rest ih =>
    obtain ⟨hx, hrest⟩ := List.forall_mem_cons.mp hxs
    refine bind_eq_ok.mpr ⟨_, symbol_eq_ok.mpr (List.getElem?_eq_getElem hx), ?_⟩
    rw [List.all_cons]
    cases hmem : known.contains x with
    | false =>
      rw [Bool.and_false]
      rfl
    | true =>
      obtain ⟨s, hs, hn⟩ := hknown x (SymbolSet.contains_iff.mp hmem)
      obtain ⟨_, rfl⟩ := List.getElem?_eq_some_iff.mp hs
      rw [hn]
      exact ih hrest

variable {rules : List Rule} (fits : b.Tabular rules)

include fits

theorem Tabular.exists_filed : ∃ rows, fileRules b.symbols.length rules = .ok rows := by
  refine exists_fileRules_ok fun rule hrule => ?_
  obtain ⟨s, hs, _⟩ := fits.left rule hrule
  exact (List.getElem?_eq_some_iff.mp hs).1

theorem Tabular.vanishing_eq_ok :
    b.vanishing rules = .ok (nullableSymbols b.symbols rules) := by
  refine saturateM_eq_ok b.Derived (fun known hknown => ?_) _
    (fun x hx => absurd hx (SymbolSet.not_mem_empty x))
  refine foldlM_eq_ok_foldl b.Derived (fun rule hrule known hknown => ?_) hknown
  have hvanishes := vanishes_eq_ok hknown (fits.right rule hrule)
  rw [addVanishing, hvanishes, addNullable]
  show (if rule.right.all known.contains = true then _ else _) = _ ∧ _
  split
  · refine ⟨rfl, fun x hx => ?_⟩
    rcases SymbolSet.mem_insert.mp hx with rfl | hx
    · exact fits.left rule hrule
    · exact hknown x hx
  · exact ⟨rfl, hknown⟩

theorem Tabular.beginnings_eq_ok (nullable : SymbolSet) :
    b.beginnings rules nullable = .ok (firstTable b.symbols rules nullable) := by
  let P := fun table : List SymbolSet => table.length = b.symbols.length
  refine saturateM_eq_ok P (fun table htable => ?_) _ List.length_mapIdx
  refine foldlM_eq_ok_foldl P (fun rule hrule table htable => ?_) htable
  obtain ⟨s, hs, _⟩ := fits.left rule hrule
  have hleft : rule.left.index < table.length := htable ▸ (List.getElem?_eq_some_iff.mp hs).1
  have hright : ∀ x ∈ leadingSymbols nullable rule.right, x.index < table.length :=
    fun x hx => htable ▸ fits.right rule hrule x (leadingSymbols_subset _ _ hx)
  refine ⟨?_, (List.length_modify ..).trans htable⟩
  rw [addBeginnings, firstOfSequence?_eq_some hright, List.getElem?_eq_getElem hleft, addFirst,
    List.modify_eq_set_getElem?, List.getElem?_eq_getElem hleft]
  rfl

end Filling

/-! ## The whole grammar -/

/-- A nonterminal is left without rules. -/
theorem undefined?_eq_some {b : Builder} {rules : List Rule} {rows : List (List RuleId)}
    (hrows : fileRules b.symbols.length rules = .ok rows) {s : Symbol}
    (h : b.undefined? rows = some s) : ∃ i, b.symbols[i]? = some s ∧ s.isNonterminal = true ∧
      ∀ rule ∈ rules, rule.left.index ≠ i := by
  obtain ⟨⟨s', i⟩, hfind, rfl⟩ := Option.map_eq_some_iff.mp h
  have htest := List.find?_some hfind
  obtain ⟨hn, hrow⟩ := Bool.and_eq_true_iff.mp htest
  refine ⟨i, List.mem_zipIdx_iff_getElem?.mp (List.mem_of_find?_eq_some hfind), hn, ?_⟩
  rintro rule hrule rfl
  have hfiled := getElem?_fileRules hrows rule.left.index
  rw [beq_iff_eq.mp hrow] at hfiled
  have hempty := List.filter_eq_nil_iff.mp (List.map_eq_nil_iff.mp hfiled.symm)
  obtain ⟨n, hn⟩ := List.mem_iff_getElem?.mp hrule
  exact hempty (rule, n) (List.mem_zipIdx_iff_getElem?.mpr hn) (beq_self_eq_true _)

/-- Every nonterminal has rules. -/
theorem undefined?_eq_none {b : Builder} {rules : List Rule} {rows : List (List RuleId)}
    (hrows : fileRules b.symbols.length rules = .ok rows) (h : b.undefined? rows = none)
    {x : SymbolId} {s : Symbol} (hs : b.symbols[x.index]? = some s) (hn : s.isNonterminal = true) :
    ∃ rule ∈ rules, rule.left = x := by
  rw [undefined?, Option.map_eq_none_iff, List.find?_eq_none] at h
  have hlt : x.index < rows.length := by
    rw [length_fileRules hrows]
    exact (List.getElem?_eq_some_iff.mp hs).1
  have hrow : rows[x.index]? ≠ some [] := by
    intro hempty
    refine h (s, x.index) (List.mem_zipIdx_iff_getElem?.mpr hs) ?_
    rw [Bool.and_eq_true, beq_iff_eq]
    exact ⟨hn, hempty⟩
  have hfiled := getElem?_fileRules hrows x.index
  rw [List.getElem?_eq_getElem hlt] at hfiled hrow
  obtain ⟨r, hr⟩ := List.exists_mem_of_ne_nil _ fun e => hrow (congrArg some e)
  rw [show rows[x.index] = _ from hfiled] at hr
  obtain ⟨⟨rule, n⟩, hmem, _⟩ := List.mem_map.mp hr
  obtain ⟨hmem, hleft⟩ := List.mem_filter.mp hmem
  exact ⟨rule, List.fst_mem_of_mem_zipIdx hmem, Handle.ext (beq_iff_eq.mp hleft)⟩

/-- The grammar holds the symbols and names of the builder, these rules, and the sets that go
with them. -/
structure Tabulates (b : Builder) (rules : List Rule) (g : Grammar) : Prop where
  symbols_eq : g.symbols = b.symbols
  names_eq : g.names = b.names
  rules_eq : g.rules = rules
  nullable_eq : g.nullable = nullableSymbols g.symbols g.rules
  first_eq : g.first = firstTable g.symbols g.rules g.nullable

/-- What becomes of rules whose symbols all have their places: nothing is in the way but a
nonterminal without rules. -/
theorem Tabular.tabulate_cases {b : Builder} {rules : List Rule} (fits : b.Tabular rules) :
    (∃ i s, b.symbols[i]? = some s ∧ s.isNonterminal = true ∧
      (∀ rule ∈ rules, rule.left.index ≠ i) ∧ b.tabulate rules = .error (.noRules s.name)) ∨
    ((∀ (x : SymbolId) s, b.symbols[x.index]? = some s → s.isNonterminal = true →
      ∃ rule ∈ rules, rule.left = x) ∧ ∃ g, b.tabulate rules = .ok g ∧ b.Tabulates rules g) := by
  obtain ⟨rows, hrows⟩ := fits.exists_filed
  let g : Grammar :=
    { symbols := b.symbols, names := b.names, rules, rulesByLeft := rows, filed := hrows,
      nullable := nullableSymbols b.symbols rules
      first := firstTable b.symbols rules (nullableSymbols b.symbols rules) }
  have htabulate : b.tabulate rules =
      (b.undefined? rows).elim (.ok g) fun s => .error (.noRules s.name) := by
    unfold tabulate
    split
    · rename_i e he
      rw [hrows] at he
      cases he
    · rename_i rows' hrows'
      obtain rfl := Except.ok.inj (hrows.symm.trans hrows')
      cases b.undefined? rows with
      | some s => rfl
      | none =>
        rw [fits.vanishing_eq_ok]
        show (b.beginnings rules _ >>= _) = _
        rw [fits.beginnings_eq_ok]
        rfl
  cases hundefined : b.undefined? rows with
  | some s =>
    obtain ⟨i, hi, hn, hno⟩ := undefined?_eq_some hrows hundefined
    exact Or.inl ⟨i, s, hi, hn, hno, htabulate.trans (by rw [hundefined]; rfl)⟩
  | none =>
    refine Or.inr ⟨fun x s => undefined?_eq_none hrows hundefined, g,
      htabulate.trans (by rw [hundefined]; rfl), ?_⟩
    exact
      { symbols_eq := rfl, names_eq := rfl, rules_eq := rfl, nullable_eq := rfl, first_eq := rfl }

end Builder
end ShiftReduce
