/-
Nullable symbols and first sets are those of derivations.

That the sets miss nothing is known: they are saturated, and every derivation is that of a
forest.  Here is the other half.  What a rule adds to a set comes with a derivation, put
together from the rule and the derivations of what is in the sets already; so the entries
of the sets have derivations after every step of every sweep.  Both halves together are
`derives_nil_iff` and `mem_sequenceFirst_iff`.

`nullable_first_of_built` says this of the questions that a grammar answers, along with the
fact that the sweeps behind the answers come to an end.
-/
import ShiftReduce.Proofs.Grammar.First

namespace ShiftReduce

theorem exists_of_mem_leadingSymbols {nullable : SymbolSet} {xs : List SymbolId} {x : SymbolId}
    (h : x ∈ leadingSymbols nullable xs) : ∃ front back : List SymbolId,
      xs = front ++ x :: back ∧ ∀ y ∈ front, nullable.contains y = true := by
  obtain ⟨n, hn⟩ := List.mem_iff_getElem?.mp h
  obtain ⟨front, back, hxs, _, hfront⟩ := exists_of_getElem?_leadingSymbols hn
  exact ⟨front, back, hxs, hfront⟩

namespace Grammar

variable {g : Grammar}

/-- Some derivation makes the sequence begin with this input symbol. -/
def Begins (g : Grammar) (xs : List SymbolId) (t : SymbolId) : Prop :=
  g.isTerminal t = true ∧ ∃ rest, g.Derives xs (t :: rest)

theorem Begins.of_derives {xs ys : List SymbolId} {t : SymbolId} (h : g.Begins ys t)
    (hxs : g.Derives xs ys) : g.Begins xs t := by
  obtain ⟨ht, rest, hrest⟩ := h
  exact ⟨ht, rest, hxs.trans hrest⟩

/-- The members derive the empty string. -/
def Vanishing (g : Grammar) (known : SymbolSet) : Prop := ∀ x ∈ known, g.Derives [x] []

/-- What a table says a symbol begins with it begins with. -/
def Beginning (g : Grammar) (table : List SymbolSet) : Prop :=
  ∀ x, ∀ t ∈ setAt table x, g.Begins [x] t

/-- What comes first is what is first once all before it has vanished. -/
theorem begins_of_front {front back : List SymbolId} {x t : SymbolId}
    (hfront : ∀ y ∈ front, g.Derives [y] []) (h : g.Begins [x] t) :
    g.Begins (front ++ x :: back) t := by
  obtain ⟨ht, rest, hrest⟩ := h
  have hvanish : g.Derives (front ++ ([x] ++ back)) ([] ++ (t :: rest ++ back)) :=
    (derives_nil_of_forall hfront).both (hrest.append [] back)
  exact ⟨ht, rest ++ back, hvanish⟩

namespace WellFormed

variable (wf : g.WellFormed)

include wf

/-! ## Nullable symbols -/

theorem vanishing_addNullable {known : SymbolSet} (h : g.Vanishing known) {rule : Rule}
    (hrule : rule ∈ g.rules) : g.Vanishing (addNullable known rule) := by
  intro x hx
  rw [addNullable] at hx
  split at hx
  · rename_i hall
    rcases SymbolSet.mem_insert.mp hx with rfl | hx
    · obtain ⟨r, hr, hleft, hright⟩ := wf.exists_ruleId hrule
      rw [← hleft]
      refine (derives_rightOf hr).trans (hright ▸ derives_nil_of_forall fun y hy => ?_)
      exact h y (SymbolSet.contains_iff.mp (List.all_eq_true.mp hall y hy))
    · exact h x hx
  · exact h x hx

theorem vanishing_nullable : g.Vanishing g.nullable := by
  rw [wf.nullable_eq]
  refine saturate_induction g.Vanishing (fun known hknown => ?_) _ fun x hx => ?_
  · exact foldl_invariant (P := g.Vanishing)
      (fun known rule hrule h => wf.vanishing_addNullable h hrule) hknown
  · exact absurd hx (SymbolSet.not_mem_empty x)

theorem derives_nil_of_isNullable {x : SymbolId} (h : g.isNullable x = true) :
    g.Derives [x] [] := wf.vanishing_nullable x (SymbolSet.contains_iff.mp h)

theorem derives_nil_iff {xs : List SymbolId} :
    g.Derives xs [] ↔ g.sequenceNullable xs = true := by
  constructor
  · intro h
    obtain ⟨f, hvalid, rfl, hyield⟩ := Forest.exists_of_derives h
    exact Forest.sequenceNullable_roots wf hvalid hyield
  · intro h
    refine derives_nil_of_forall fun x hx => ?_
    exact wf.derives_nil_of_isNullable (List.all_eq_true.mp h x hx)

/-! ## First sets -/

theorem begins_of_mem_firstOfSequence {table : List SymbolSet} (h : g.Beginning table)
    {xs : List SymbolId} {t : SymbolId} (ht : t ∈ firstOfSequence g.nullable table xs) :
    g.Begins xs t := by
  obtain ⟨x, hx, hset⟩ := mem_firstOfSequence.mp ht
  obtain ⟨front, back, rfl, hfront⟩ := exists_of_mem_leadingSymbols hx
  exact begins_of_front (fun y hy => wf.derives_nil_of_isNullable (hfront y hy)) (h x t hset)

theorem beginning_addFirst {table : List SymbolSet} (h : g.Beginning table) {rule : Rule}
    (hrule : rule ∈ g.rules) : g.Beginning (addFirst g.nullable table rule) := by
  intro x t ht
  rcases SymbolTable.mem_setAt_modify.mp ht with ht | ⟨hx, _, ht⟩
  · exact h x t ht
  · obtain ⟨r, hr, hleft, hright⟩ := wf.exists_ruleId hrule
    rw [Handle.ext hx, ← hleft]
    exact (wf.begins_of_mem_firstOfSequence h ht).of_derives (hright ▸ derives_rightOf hr)

theorem beginning_first : g.Beginning g.first := by
  rw [wf.first_eq, firstTable]
  refine saturate_induction g.Beginning (fun table htable => ?_) _ fun x t ht => ?_
  · exact foldl_invariant (P := g.Beginning)
      (fun table rule hrule h => wf.beginning_addFirst h hrule) htable
  · obtain ⟨rfl, hterminal⟩ := mem_initialFirst.mp ht
    exact ⟨hterminal, [], .refl⟩

theorem mem_sequenceFirst_iff {xs : List SymbolId} {t : SymbolId} :
    t ∈ g.sequenceFirst xs ↔ g.Begins xs t := by
  constructor
  · intro h
    exact wf.begins_of_mem_firstOfSequence wf.beginning_first h
  · rintro ⟨ht, rest, h⟩
    obtain ⟨f, hvalid, rfl, hyield⟩ := Forest.exists_of_derives h
    exact Forest.mem_sequenceFirst_roots wf hvalid ht hyield

end WellFormed

/-- A sequence begins as its front does, or as its back does once its front has vanished. -/
theorem Begins.append_cases (wf : g.WellFormed) {xs ys : List SymbolId} {t : SymbolId}
    (h : g.Begins (xs ++ ys) t) : g.Begins xs t ∨ g.Derives xs [] ∧ g.Begins ys t := by
  obtain ⟨ht, rest, h⟩ := h
  obtain ⟨f, hvalid, hroots, hyield⟩ := Forest.exists_of_derives h
  obtain ⟨front, back, rfl, rfl, rfl⟩ := Forest.exists_append_of_roots hroots
  obtain ⟨hfront, hback⟩ := Forest.valid_append.mp hvalid
  rw [Forest.yield_append] at hyield
  cases hcase : front.yield with
  | nil =>
    rw [hcase] at hyield
    have hnullable := Forest.sequenceNullable_roots wf hfront hcase
    have hfirst := Forest.mem_sequenceFirst_roots wf hback ht hyield
    exact Or.inr ⟨wf.derives_nil_iff.mpr hnullable, wf.mem_sequenceFirst_iff.mp hfirst⟩
  | cons t' more =>
    rw [hcase] at hyield
    obtain ⟨rfl, _⟩ := List.cons.inj hyield
    exact Or.inl (wf.mem_sequenceFirst_iff.mp (Forest.mem_sequenceFirst_roots wf hfront ht hcase))

theorem WellFormed.mem_firstOf_iff (wf : g.WellFormed) {x t : SymbolId} :
    t ∈ g.firstOf x ↔ g.Begins [x] t := by
  rw [← wf.mem_sequenceFirst_iff, sequenceFirst, mem_firstOfSequence]
  have hleading : leadingSymbols g.nullable [x] = [x] := by simp [leadingSymbols]
  simp [hleading, firstOf]

/-- A sequence is refused only if it has a symbol that the grammar does not have. -/
theorem WellFormed.sequenceFirst?_eq_some (wf : g.WellFormed) {xs : List SymbolId}
    (h : ∀ x ∈ xs, x.index < g.symbols.length) :
    g.sequenceFirst? xs = some (g.sequenceFirst xs, g.sequenceNullable xs) := by
  rw [sequenceFirst?, firstOfSequence?_eq_some, sequenceFirst]
  · rfl
  · intro x hx
    rw [wf.first_saturated.1.length_eq]
    exact h x (leadingSymbols_subset _ _ hx)

/-- The loops for the nullable symbols and for the first sets of a grammar come to an end.  What
they end with are the symbols that derive the empty string, and for each symbol the input
symbols it can begin with; and a sequence is answered with the input symbols it can begin with
and with whether it derives the empty string. -/
theorem nullable_first_of_built {g : Grammar} (built : g.Built)
    (hsymbols : g.symbols.length < handleSpan) (hrules : g.rules.length < handleSpan) :
    Stabilizes addNullable g.rules ∅ g.nullable ∧
    Stabilizes (addFirst g.nullable) g.rules (initialFirst g.symbols) g.first ∧
    (∀ x, g.isNullable x = true ↔ g.Derives [x] []) ∧
    (∀ x t, t ∈ g.firstOf x ↔ g.isTerminal t = true ∧ ∃ rest, g.Derives [x] (t :: rest)) ∧
    ∀ xs : List SymbolId, (∀ x ∈ xs, x.index < g.symbols.length) →
      ∃ (set : SymbolSet) (vanishes : Bool), g.sequenceFirst? xs = some (set, vanishes) ∧
        (∀ t, t ∈ set ↔ g.isTerminal t = true ∧ ∃ rest, g.Derives xs (t :: rest)) ∧
        (vanishes = true ↔ g.Derives xs []) := by
  have wf := built.wellFormed hsymbols hrules
  refine ⟨?_, ?_, fun x => ?_, fun x t => wf.mem_firstOf_iff, fun xs hxs => ?_⟩
  · have hfixed : ∀ rule ∈ g.rules, addNullable g.nullable rule = g.nullable :=
      fun rule hrule => wf.addNullable_nullable hrule
    rw [wf.nullable_eq] at hfixed ⊢
    exact stabilizes_saturate hfixed
  · have hfixed := wf.first_saturated.2.2
    rw [wf.first_eq] at hfixed ⊢
    exact stabilizes_saturate hfixed
  · rw [wf.derives_nil_iff, sequenceNullable]
    simp
  · exact ⟨_, _, wf.sequenceFirst?_eq_some hxs, fun t => wf.mem_sequenceFirst_iff,
      wf.derives_nil_iff.symm⟩

/-- A list behind a mark that need not be written. -/
def marked : List Bnf.Definition :=
  [⟨"list", [⟨[⟨"mark", none⟩, ⟨"list", none⟩, ⟨"x", none⟩], 0⟩, ⟨[⟨"y", none⟩], 0⟩]⟩,
    ⟨"mark", [⟨[], 0⟩, ⟨[⟨"z", none⟩], 0⟩]⟩]

/-- In `marked` a mark derives nothing, so what begins a list begins a mark with a list behind
it; the two together do not vanish. -/
theorem nullable_first_of_built_marked : ∃ (g : Grammar) (set : SymbolSet),
    ofDefinitions marked = .ok g ∧ g.symbols.length < handleSpan ∧ g.rules.length < handleSpan ∧
      g.Derives [Handle.ofNat 3] [] ∧
      g.sequenceFirst? [Handle.ofNat 3, Handle.ofNat 2] = some (set, false) ∧
      (∃ rest, g.Derives [Handle.ofNat 3, Handle.ofNat 2] (Handle.ofNat 5 :: rest)) ∧
      ¬ g.Derives [Handle.ofNat 3, Handle.ofNat 2] [] := by
  obtain ⟨g, hg, h⟩ : ∃ g, ofDefinitions marked = .ok g ∧
      decide (g.symbols.length < handleSpan ∧ g.rules.length < handleSpan ∧
        g.isNullable (Handle.ofNat 3) = true ∧
        (∀ x ∈ ([Handle.ofNat 3, Handle.ofNat 2] : List SymbolId), x.index < g.symbols.length) ∧
        ((g.sequenceFirst? [Handle.ofNat 3, Handle.ofNat 2]).any fun answer =>
          decide (Handle.ofNat 5 ∈ answer.1) && !answer.2) = true) = true :=
    exists_ok_of_any (by decide +kernel)
  obtain ⟨hsymbols, hrules, hmark, hlt, hanswer⟩ := of_decide_eq_true h
  obtain ⟨_, _, hnullable, _, hsequence⟩ :=
    nullable_first_of_built (.ofDefinitions hg) hsymbols hrules
  obtain ⟨set, vanishes, hset, hmem, hvanishes⟩ := hsequence _ hlt
  rw [hset] at hanswer
  obtain ⟨hfive, hno⟩ := Bool.and_eq_true_iff.mp hanswer
  obtain rfl : vanishes = false := by simpa using hno
  refine ⟨g, set, hg, hsymbols, hrules, (hnullable _).mp hmark, hset, ?_, ?_⟩
  · exact ((hmem _).mp (of_decide_eq_true hfive)).2
  · intro hderives
    exact absurd (hvanishes.mpr hderives) Bool.false_ne_true

end Grammar
end ShiftReduce
