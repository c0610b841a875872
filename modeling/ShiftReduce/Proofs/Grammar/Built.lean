/-
The grammars there are, and what they have in common.

A grammar comes out of a builder, and a builder is made by declaring symbols and
giving rules.  `Builder.Made` and `Grammar.Built` say so as inductive relations,
with one constructor for each way in.  `Grammar.WellFormed` collects what every
such grammar satisfies as long as its symbols and rules have handles of their
own; the proofs about automata and tables start from that and never go back to
the builder.
-/
import ShiftReduce.Bnf.Grammar
import ShiftReduce.Item
import ShiftReduce.Proofs.Grammar.Tables

namespace ShiftReduce

namespace Builder

/-- The builders that declarations and rules make out of the empty one.  A
declaration that is refused leaves the builder as it was. -/
inductive Made : Builder → Prop
  | empty : Made .empty
  | terminal {b b' : Builder} {name : String} {id : SymbolId} :
      Made b → b.terminal name = .ok (id, b') → Made b'
  | nonterminal {b b' : Builder} {name : String} {id : SymbolId} :
      Made b → b.nonterminal name = .ok (id, b') → Made b'
  | rule {b : Builder} (spec : RuleSpec) : Made b → Made (b.rule spec)

/-- The symbols start with the two that are always there, only the first of them
is an end marker, no name is used twice, and the name table has each symbol under
its name and nothing else. -/
structure Orderly (b : Builder) : Prop where
  symbols_eq : ∃ declared : List Symbol,
    b.symbols = ⟨Symbol.endName, .endMarker⟩ :: ⟨Symbol.acceptName, .nonterminal⟩ :: declared ∧
      ∀ s ∈ declared, s.kind ≠ .endMarker
  names_nodup : (b.symbols.map Symbol.name).Nodup
  names_eq : b.names = Symbol.naming b.symbols

theorem Orderly.empty : Orderly .empty :=
  { symbols_eq := ⟨[], rfl, fun _ h => absurd h List.not_mem_nil⟩
    names_nodup := by decide
    names_eq := rfl }

/-- What the name table of an orderly builder has under a name. -/
theorem Orderly.find?_eq_some_iff {b : Builder} (o : b.Orderly)
    (hroom : b.symbols.length ≤ handleSpan) {name : String} {x : SymbolId} :
    b.find? name = some x ↔ ∃ s, x.get? b.symbols = some s ∧ s.name = name := by
  rw [find?, o.names_eq]
  exact Symbol.lookup_naming_eq_some_iff o.names_nodup hroom

theorem Orderly.find?_eq_none_iff {b : Builder} (o : b.Orderly) {name : String} :
    b.find? name = none ↔ ∀ s ∈ b.symbols, s.name ≠ name := by
  rw [find?, o.names_eq]
  exact Symbol.lookup_naming_eq_none_iff

/-- A declaration only ever adds a symbol, and only under a name that leads nowhere. -/
theorem declare_eq_ok {b b' : Builder} {name : String} {kind : SymbolKind} {id : SymbolId}
    (h : b.declare name kind = .ok (id, b')) :
    b' = b ∨ b.find? name = none ∧ b' = (b.push ⟨name, kind⟩).2 := by
  unfold declare at h
  split at h
  · cases h
  · split at h
    · obtain ⟨s, _, h⟩ := bind_eq_ok.mp h
      split at h
      · cases h
        exact Or.inl rfl
      · cases h
    · rename_i hfind
      cases h
      exact Or.inr ⟨hfind, rfl⟩

/-- One more symbol under a new name leaves everything in order. -/
theorem Orderly.push {b : Builder} (o : b.Orderly) {s : Symbol} (hkind : s.kind ≠ .endMarker)
    (hfresh : b.find? s.name = none) : (b.push s).2.Orderly := by
  have hsymbols : (b.push s).2.symbols = b.symbols ++ [s] := rfl
  obtain ⟨declared, hdeclared, hkinds⟩ := o.symbols_eq
  refine { symbols_eq := ⟨declared ++ [s], ?_, fun t ht => ?_⟩, names_nodup := ?_, names_eq := ?_ }
  · rw [hsymbols, hdeclared]
    rfl
  · rcases List.mem_append.mp ht with ht | ht
    · exact hkinds t ht
    · rw [List.mem_singleton.mp ht]
      exact hkind
  · rw [hsymbols, List.map_append, List.map_singleton, List.nodup_append]
    refine ⟨o.names_nodup, List.pairwise_singleton _ _, fun x hx y hy e => ?_⟩
    obtain ⟨t, ht, rfl⟩ := List.mem_map.mp hx
    exact o.find?_eq_none_iff.mp hfresh t ht (e.trans (List.mem_singleton.mp hy))
  · rw [hsymbols, Symbol.naming_snoc, ← o.names_eq]
    rfl

theorem Orderly.declare {b b' : Builder} {name : String} {kind : SymbolKind} {id : SymbolId}
    (hkind : kind ≠ .endMarker) (o : b.Orderly) (h : b.declare name kind = .ok (id, b')) :
    b'.Orderly := by
  rcases declare_eq_ok h with rfl | ⟨hfresh, rfl⟩
  · exact o
  · exact o.push hkind hfresh

theorem Made.orderly {b : Builder} (made : b.Made) : b.Orderly := by
  induction made with
  | empty => exact Orderly.empty
  | terminal _ h ih => exact ih.declare (by decide) h
  | nonterminal _ h ih => exact ih.declare (by decide) h
  | rule spec _ ih => exact ⟨ih.symbols_eq, ih.names_nodup, ih.names_eq⟩

theorem Made.declare {b b' : Builder} {name : String} {kind : SymbolKind} {id : SymbolId}
    (made : b.Made) (hkind : kind ≠ .endMarker) (h : b.declare name kind = .ok (id, b')) :
    b'.Made := by
  cases kind with
  | terminal => exact made.terminal h
  | nonterminal => exact made.nonterminal h
  | endMarker => exact absurd rfl hkind

end Builder

/-! ## From definitions and text -/

namespace Bnf

theorem made_declareOccurrences {defined : List String} {os : List Occurrence} {b b' : Builder}
    {ids : List SymbolId} (made : b.Made)
    (h : declareOccurrences defined os b = .ok (ids, b')) : b'.Made := by
  induction os generalizing b ids with
  | nil =>
    cases h
    exact made
  | cons o rest ih =>
    rw [declareOccurrences] at h
    obtain ⟨⟨id, b₁⟩, hdeclare, h⟩ := bind_eq_ok.mp h
    obtain ⟨⟨more, b₂⟩, hrest, h⟩ := bind_eq_ok.mp h
    cases h
    refine ih (made.declare ?_ hdeclare) hrest
    split <;> decide

theorem made_addDefinition {defined : List String} {b b' : Builder} {d : Definition}
    (made : b.Made) (h : addDefinition defined b d = .ok b') : b'.Made := by
  obtain ⟨⟨left, b₁⟩, hleft, h⟩ := bind_eq_ok.mp h
  refine foldlM_induction Builder.Made (fun a _ b c hb hc => ?_) (made.nonterminal hleft) h
  obtain ⟨⟨right, b₂⟩, hright, hc⟩ := bind_eq_ok.mp hc
  cases hc
  exact (made_declareOccurrences hb hright).rule _

end Bnf

namespace Grammar

/-- The grammars that can be had: from a builder, from definitions or from a text. -/
inductive Built : Grammar → Prop
  | ofBuilder {b : Builder} {start : SymbolId} {g : Grammar} :
      b.Made → b.build start = .ok g → Built g
  | ofDefinitions {definitions : List Bnf.Definition} {g : Grammar} :
      Grammar.ofDefinitions definitions = .ok g → Built g
  | ofText {text : String} {g : Grammar} : Grammar.ofText text = .ok g → Built g

theorem exists_made_of_ofDefinitions {definitions : List Bnf.Definition} {g : Grammar}
    (h : Grammar.ofDefinitions definitions = .ok g) :
    ∃ (b : Builder) (start : SymbolId), b.Made ∧ b.build start = .ok g := by
  cases definitions with
  | nil => cases h
  | cons first rest =>
    obtain ⟨b₁, h₁, h⟩ := bind_eq_ok.mp h
    obtain ⟨b₂, h₂, h⟩ := bind_eq_ok.mp h
    obtain ⟨⟨start, b₃⟩, h₃, h⟩ := bind_eq_ok.mp h
    have made₁ : b₁.Made := by
      refine foldlM_induction Builder.Made (fun d _ b c hb hc => ?_) Builder.Made.empty h₁
      obtain ⟨⟨id, b'⟩, hid, hc⟩ := bind_eq_ok.mp hc
      cases hc
      exact hb.nonterminal hid
    have made₂ : b₂.Made :=
      foldlM_induction Builder.Made (fun _ _ _ _ hb hc => Bnf.made_addDefinition hb hc) made₁ h₂
    exact ⟨b₃, start, made₂.nonterminal h₃, h⟩

/-- However a grammar was had, a builder made it. -/
theorem Built.exists_made {g : Grammar} (built : g.Built) :
    ∃ (b : Builder) (start : SymbolId), b.Made ∧ b.build start = .ok g := by
  cases built with
  | ofBuilder made h => exact ⟨_, _, made, h⟩
  | ofDefinitions h => exact exists_made_of_ofDefinitions h
  | ofText h =>
    obtain ⟨definitions, _, h⟩ := bind_eq_ok.mp h
    exact exists_made_of_ofDefinitions h

end Grammar
end ShiftReduce
