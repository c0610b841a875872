/-
The automaton behind the tables of a grammar.

Whatever the method, the tables of a grammar read as an automaton that sharpens the
canonical collection: it has the same states, and of their transitions some, with
lookaheads put on them.  By the plain method, or without priorities, it also serves
the canonical collection.  Everything said about the parser starts from here.
-/
import ShiftReduce.Generator
import ShiftReduce.Proofs.Refinement.EqualPriority
import ShiftReduce.Proofs.Table.Reading

namespace ShiftReduce
namespace Automaton

/-- An automaton has the states of another and makes no transitions of its own. -/
def Sharpens (b a : Automaton) : Prop :=
  Reworked (fun ts ts' => ∀ t ∈ ts', Refinement.Stems ts t) a b

variable {g : Grammar} {a b : Automaton}

theorem size_of_any {l : Lookahead} (h : l = .any) : l.size ≤ 1 := by
  rw [h]
  exact Nat.zero_le 1

theorem Canonical.sharpens_self (hc : Canonical g a) : Sharpens a a := by
  refine List.forall₂_same.mpr fun s hs => ⟨rfl, rfl, fun t ht => ?_⟩
  exact ⟨⟨t, ht, rfl⟩, size_of_any (hc.any_lookahead hs ht)⟩

theorem Canonical.sharpens_refine (hc : Canonical g a) {events : List Event}
    (h : a.refine g = .ok (b, events)) : Sharpens b a := by
  obtain ⟨v, _, hrefine⟩ := refine_eq_ok h
  refine List.forall₂_iff_get.mpr ⟨List.Forall₂.length_eq hrefine, fun n hn hn' => ?_⟩
  obtain ⟨hid, hset, hrefined⟩ := List.Forall₂.get hrefine hn hn'
  refine ⟨hid, hset, Refinement.refined_stem hrefined fun t ht => ?_⟩
  exact size_of_any (hc.any_lookahead (List.get_mem _ _) ht)

namespace Sharpens

variable (h : Sharpens b a)

include h

theorem exists_state {n : Nat} {s : State} (hs : a.states[n]? = some s) :
    ∃ s', b.states[n]? = some s' := Reworked.exists_at h hs

theorem item_eq {site : Site} {item : Item} (hitem : a.item site = .ok item) :
    b.item site = .ok item := by
  obtain ⟨s, hs, hposition⟩ := item_eq_ok.mp hitem
  obtain ⟨s', hs'⟩ := h.exists_state hs
  obtain ⟨_, hset, _⟩ := h.at hs hs'
  exact item_eq_ok.mpr ⟨s', hs', hset ▸ hposition⟩

/-- What a transition does has nothing to do with the other transitions. -/
theorem action?_eq {g : Grammar} {t : Transition}
    (ht : ∃ item, a.item t.origin = .ok item) : b.action? g t = a.action? g t := by
  obtain ⟨item, hitem⟩ := ht
  unfold action?
  rw [hitem, h.item_eq hitem]

theorem exists_stem {n : Nat} {s s' : State} (hs : a.states[n]? = some s)
    (hs' : b.states[n]? = some s') {t' : Transition} (ht' : t' ∈ s'.transitions) :
    ∃ t ∈ s.transitions, t'.edge = t.edge :=
  ((h.at hs hs').2.2 t' ht').1

end Sharpens

/-- Transitions stem from items of their own state. -/
theorem Canonical.state_origin (hc : Canonical g a) (h : Sharpens b a) {s' : State}
    (hs' : s' ∈ b.states) {t' : Transition} (ht' : t' ∈ s'.transitions) :
    t'.origin.state = s'.id := by
  obtain ⟨n, s, hs, hid, hstems⟩ := Reworked.exists_before h hs'
  obtain ⟨⟨t, ht, hedge⟩, _⟩ := hstems t' ht'
  obtain ⟨target, hcomplete⟩ := hc.complete s (List.mem_of_getElem? hs)
  obtain ⟨item, hstate, _⟩ := (hcomplete.mem_iff t).mp ht
  rw [Transition.origin_of_edge hedge, hid, hstate]

theorem Canonical.tables_read (wf : g.WellFormed) (hc : Canonical g a) (h : Sharpens b a)
    {tables : Tables} (hcheck : b.check g = .ok ()) (htables : b.tables g = .ok tables) :
    Reads g b tables := by
  refine Automaton.tables_read wf hcheck htables (fun s' hs' t' ht' => ?_) fun s' hs' t' ht' => ?_
  · exact hc.state_origin h hs' ht'
  · obtain ⟨_, _, _, _, hstems⟩ := Reworked.exists_before h hs'
    exact (hstems t' ht').2

end Automaton

namespace Grammar

/-- A reduction takes as many states off as its rule has symbols on its right. -/
theorem WellFormed.length_bindingsOf {g : Grammar} (wf : g.WellFormed) {r : RuleId}
    (h : r.index < g.rules.length) : (g.bindingsOf r).length = (g.rightOf r).length := by
  obtain ⟨rule, hmem, hrule⟩ := exists_rule?_of_lt h
  rw [bindingsOf, hrule, rightOf_of_rule? hrule]
  exact wf.length_bindings rule hmem

theorem tables_eq_ok {g : Grammar} {method : Method} {tables : Tables}
    (h : g.tables method = .ok tables) : ∃ b : Automaton,
      (method = .plain ∧ b = .build g ∨
        method = .refined ∧ ∃ events, (Automaton.build g).refine g = .ok (b, events)) ∧
      b.check g = .ok () ∧ b.tables g = .ok tables := by
  cases method with
  | plain =>
    obtain ⟨_, hcheck, h⟩ := bind_eq_ok.mp h
    exact ⟨.build g, Or.inl ⟨rfl, rfl⟩, hcheck, h⟩
  | refined =>
    obtain ⟨⟨b, events⟩, hrefine, h⟩ := bind_eq_ok.mp h
    obtain ⟨_, hcheck, h⟩ := bind_eq_ok.mp h
    exact ⟨b, Or.inr ⟨rfl, events, hrefine⟩, hcheck, h⟩

/-- The tables of a grammar are those of an automaton that sharpens the canonical
collection, and read as it does. -/
theorem WellFormed.exists_behind {g : Grammar} (wf : g.WellFormed)
    (hsize : (Automaton.build g).size < handleSpan) {method : Method} {tables : Tables}
    (h : g.tables method = .ok tables) : ∃ b : Automaton,
      (method = .plain ∧ b = .build g ∨
        method = .refined ∧ ∃ events, (Automaton.build g).refine g = .ok (b, events)) ∧
      b.Sharpens (.build g) ∧ b.Reads g tables ∧ b.tables g = .ok tables := by
  have hc := wf.canonical hsize
  obtain ⟨b, hb, hcheck, htables⟩ := tables_eq_ok h
  have hsharpens : b.Sharpens (.build g) := by
    rcases hb with ⟨_, rfl⟩ | ⟨_, events, hrefine⟩
    · exact hc.sharpens_self
    · exact hc.sharpens_refine hrefine
  exact ⟨b, hb, hsharpens, hc.tables_read wf hsharpens hcheck htables, htables⟩

/-- The tables of a grammar read as an automaton that sharpens the canonical
collection, and that serves it unless priorities were at work. -/
theorem WellFormed.exists_reads {g : Grammar} (wf : g.WellFormed)
    (hsize : (Automaton.build g).size < handleSpan) {method : Method} {tables : Tables}
    (h : g.tables method = .ok tables) : ∃ b : Automaton,
      b.Sharpens (.build g) ∧ b.Reads g tables ∧
        (method = .plain ∨ g.EqualPriorities → b.Serves g (.build g)) := by
  have hc := wf.canonical hsize
  obtain ⟨b, hb, hsharpens, hreads, _⟩ := wf.exists_behind hsize h
  refine ⟨b, hsharpens, hreads, fun hequal => ?_⟩
  rcases hb with ⟨_, rfl⟩ | ⟨hrefined, events, hrefine⟩
  · exact hc.serves_self
  · rcases hequal with hplain | hequal
    · rw [hrefined] at hplain
      cases hplain
    · exact Automaton.refine_serves wf hc hequal hrefine

end Grammar
end ShiftReduce
