/-
First sets, follow sets and lookaheads hold input symbols only.

The tables behind these sets are saturated by taking unions, so it is enough that the
sets they start from are of input symbols.  A lookahead built from them has one
position at most: `Lookahead.Simple` is what every lookahead of a refinement is.
-/
import ShiftReduce.Proofs.Automaton.Lookahead

namespace ShiftReduce

namespace SymbolSet

/-- All members can be read from an input. -/
def OfInput (g : Grammar) (s : SymbolSet) : Prop := ∀ x ∈ s, g.isTerminal x = true

variable {g : Grammar}

theorem ofInput_empty (g : Grammar) : OfInput g ∅ := fun x hx => absurd hx (not_mem_empty x)

theorem OfInput.union {s t : SymbolSet} (hs : s.OfInput g) (ht : t.OfInput g) :
    (s ∪ t).OfInput g := fun x hx => (mem_union.mp hx).elim (hs x) (ht x)

theorem OfInput.insert {s : SymbolSet} (hs : s.OfInput g) {x : SymbolId}
    (hx : g.isTerminal x = true) : (insert x s).OfInput g := by
  intro y hy
  rcases mem_insert.mp hy with rfl | hy
  · exact hx
  · exact hs y hy

theorem OfInput.foldl_union {α : Type} {f : α → SymbolSet} {xs : List α} {s : SymbolSet}
    (hs : s.OfInput g) (hf : ∀ x ∈ xs, (f x).OfInput g) :
    (xs.foldl (fun acc x => acc ∪ f x) s).OfInput g := by
  intro y hy
  rcases mem_foldl_union.mp hy with hy | ⟨x, hx, hy⟩
  · exact hs y hy
  · exact hf x hx y hy

end SymbolSet

namespace SymbolTable

/-- All sets of a table are of input symbols. -/
def OfInput (g : Grammar) (table : List SymbolSet) : Prop := ∀ x, (setAt table x).OfInput g

variable {g : Grammar}

theorem OfInput.modify_union {table : List SymbolSet} (h : OfInput g table) (i : Nat)
    {s : SymbolSet} (hs : s.OfInput g) : OfInput g (table.modify i (· ∪ s)) := by
  intro x y hy
  rcases mem_setAt_modify.mp hy with hy | ⟨_, _, hy⟩
  · exact h x y hy
  · exact hs y hy

theorem OfInput.firstOfSequence {nullable : SymbolSet} {table : List SymbolSet}
    (h : OfInput g table) (xs : List SymbolId) :
    (firstOfSequence nullable table xs).OfInput g :=
  (SymbolSet.ofInput_empty g).foldl_union fun x _ => h x

end SymbolTable

namespace Grammar

variable {g : Grammar}

theorem ofInput_initialFirst : SymbolTable.OfInput g (initialFirst g.symbols) := by
  intro x y hy
  obtain ⟨rfl, hterminal⟩ := WellFormed.mem_initialFirst.mp hy
  exact hterminal

namespace WellFormed

variable (wf : g.WellFormed)

include wf

theorem ofInput_first : SymbolTable.OfInput g g.first := by
  rw [wf.first_eq, firstTable]
  refine saturate_induction (SymbolTable.OfInput g) (fun table h => ?_) _ ofInput_initialFirst
  exact foldl_invariant (fun table rule _ h => h.modify_union _ (h.firstOfSequence _)) h

theorem ofInput_firstWith {follow : List SymbolSet} (h : SymbolTable.OfInput g follow)
    (item : Item) : (item.firstWith g follow).OfInput g := by
  have hfirst : (g.sequenceFirst (item.rest g)).OfInput g := wf.ofInput_first.firstOfSequence _
  simp only [Item.firstWith]
  split
  · split
    · exact hfirst.insert wf.isTerminal_endMarker
    · exact hfirst.union (h _)
  · exact hfirst

theorem ofInput_followTable (a : Automaton) : SymbolTable.OfInput g (a.followTable g) := by
  refine saturate_induction (SymbolTable.OfInput g) (fun table h => ?_) _ fun x => ?_
  · exact foldl_invariant (fun table follower _ h => h.modify_union _ (wf.ofInput_firstWith h _)) h
  · rw [setAt, List.getElem?_replicate]
    split
    · exact SymbolSet.ofInput_empty g
    · exact SymbolSet.ofInput_empty g

end WellFormed

end Grammar

namespace Lookahead

/-- One position at most, and only input symbols in it. -/
def Simple (g : Grammar) (l : Lookahead) : Prop :=
  l.size ≤ 1 ∧ ∀ s ∈ l.positions, s.OfInput g

variable {g : Grammar}

theorem simple_any (g : Grammar) : any.Simple g :=
  ⟨Nat.zero_le 1, fun _ hs => absurd hs List.not_mem_nil⟩

theorem simple_ofSet {s : SymbolSet} (h : s.OfInput g) : (ofSet s).Simple g := by
  rw [ofSet]
  split
  · exact simple_any g
  · exact ⟨Nat.le_refl 1, List.forall_mem_singleton.mpr h⟩

end Lookahead

namespace Survey

variable {g : Grammar} (wf : g.WellFormed) {a : Automaton}

include wf

theorem ofInput_behind (trigger : SymbolId) (item : Item) :
    ((make g a).behind trigger item).OfInput g :=
  (SymbolSet.ofInput_empty g).foldl_union fun _ _ =>
    wf.ofInput_firstWith (wf.ofInput_followTable a) _

theorem simple_reduceLookahead (left trigger : SymbolId) :
    ((make g a).reduceLookahead left trigger).Simple g := by
  simp only [reduceLookahead]
  split
  · exact Lookahead.simple_any g
  · split
    · exact Lookahead.simple_any g
    · exact Lookahead.simple_ofSet ((SymbolSet.ofInput_empty g).foldl_union fun item _ =>
        ofInput_behind wf trigger item)

end Survey
end ShiftReduce
