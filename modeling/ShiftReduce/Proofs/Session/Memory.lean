/-
What a session remembers makes no difference.

A session keeps the follow table and the first sets it was asked for until a state is added.
`Coherent` says that all of it is what would be computed now.  A question that is put to a coherent
session gets the answer that the automaton alone would give, and leaves a coherent session behind
(`Answered`, with one lemma for each question).  Editing transitions keeps the memory, and rightly
so, because nothing in it depends on them; that is where `Automaton.bare` comes in.

`caches_transparent` is the result for all sequences of calls.
-/
import ShiftReduce.Proofs.Session.States

namespace ShiftReduce
namespace Session

/-- What is remembered is what would be computed now. -/
structure Coherent (g : Grammar) (n : Session) : Prop where
  follow : ∀ follow, n.follow? = some follow → follow = n.automaton.followTable g
  firsts : ∀ site set, n.firsts.lookup site = some set →
    ∃ item, n.automaton.item site = .ok item ∧
      set = item.firstWith g (n.automaton.followTable g)

@[simp] theorem automaton_start (a : Automaton) : (start a).automaton = a := rfl

@[simp] theorem firsts_start (a : Automaton) : (start a).firsts = [] := rfl

theorem coherent_start (g : Grammar) (a : Automaton) : (start a).Coherent g :=
  { follow := fun _ e => absurd e (Option.some_ne_none _).symm
    firsts := fun _ _ e => absurd e (Option.some_ne_none _).symm }

/-- A question was answered as it would be by a session without memory, and everything that is
remembered now may be. -/
structure Answered (g : Grammar) {α : Type} (asked fresh : α × Session) : Prop where
  answer : asked.1 = fresh.1
  coherent : asked.2.Coherent g

variable {g : Grammar} {n : Session} (h : n.Coherent g)

include h

/-! ## Questions -/

theorem table_eq : n.table g =
    (n.automaton.followTable g, { n with follow? := some (n.automaton.followTable g) }) := by
  unfold table
  cases hfollow : n.follow? with
  | none => rfl
  | some follow =>
    show (follow, n) = _
    rw [← h.follow follow hfollow, ← hfollow]

theorem answered_table : Answered g (n.table g) ((start n.automaton).table g) := by
  rw [table_eq h]
  exact
    { answer := rfl
      coherent :=
        { follow := fun _ e => (Option.some.inj e).symm
          firsts := h.firsts } }

theorem answered_followOf (x : SymbolId) :
    Answered g (n.followOf g x) ((start n.automaton).followOf g x) :=
  { answer := congrArg (setAt · x) (answered_table h).answer
    coherent := (answered_table h).coherent }

/-- A first set that is remembered was that of the item; one that is not is computed from the
follow table, and is remembered then. -/
theorem answered_firstSet (site : Site) :
    Answered g (n.firstSet g site) ((start n.automaton).firstSet g site) := by
  unfold firstSet
  rw [automaton_start, firsts_start, List.lookup_nil]
  cases hlookup : n.firsts.lookup site with
  | some set =>
    obtain ⟨item, hitem, rfl⟩ := h.firsts site set hlookup
    rw [hitem]
    exact ⟨rfl, h⟩
  | none =>
    cases hitem : n.automaton.item site with
    | error e => exact ⟨rfl, h⟩
    | ok item =>
      rw [table_eq h]
      refine ⟨rfl, { follow := fun _ e => (Option.some.inj e).symm, firsts := ?_ }⟩
      intro site' set hset
      rw [List.lookup_cons] at hset
      by_cases hsite : site' = site
      · rw [beq_iff_eq.mpr hsite] at hset
        exact ⟨item, hsite ▸ hitem, (Option.some.inj hset).symm⟩
      · rw [beq_eq_false_iff_ne.mpr hsite] at hset
        exact h.firsts site' set hset

theorem answered_followSet (site : Site) :
    Answered g (n.followSet g site) ((start n.automaton).followSet g site) := by
  unfold followSet
  rw [automaton_start]
  cases n.automaton.followSource g site with
  | error e => exact ⟨rfl, h⟩
  | ok source =>
    cases source with
    | ofSymbol x =>
      have hx := answered_followOf h x
      exact ⟨congrArg Except.ok hx.answer, hx.coherent⟩
    | atSite site => exact answered_firstSet h site

theorem answered_shiftLookahead (origin : Site) :
    Answered g (n.shiftLookahead g origin) ((start n.automaton).shiftLookahead g origin) := by
  unfold shiftLookahead
  rw [automaton_start]
  cases n.automaton.advancedSite g origin with
  | error e => exact ⟨rfl, h⟩
  | ok site =>
    have hsite := answered_firstSet h site
    exact ⟨congrArg (Except.map Lookahead.ofSet) hsite.answer, hsite.coherent⟩

theorem answered_reduceLookahead (left trigger : SymbolId) :
    Answered g (n.reduceLookahead g left trigger)
      ((start n.automaton).reduceLookahead g left trigger) := by
  by_cases htrigger : trigger = .endMarker
  · rw [reduceLookahead, reduceLookahead, if_pos htrigger, if_pos htrigger]
    exact ⟨rfl, h⟩
  · have htable := answered_table h
    rw [reduceLookahead, reduceLookahead, if_neg htrigger, if_neg htrigger]
    refine ⟨?_, htable.coherent⟩
    rw [table_eq h]
    rfl

theorem answered_ask (q : Question) : Answered g (n.ask g q) ((start n.automaton).ask g q) := by
  cases q with
  | follow x => exact answered_followOf h x
  | first site => exact answered_firstSet h site
  | behind site => exact answered_followSet h site
  | shift origin => exact answered_shiftLookahead h origin
  | reduce left trigger => exact answered_reduceLookahead h left trigger

theorem answered_lookaheadFor (t : Transition) :
    Answered g (n.lookaheadFor g t) ((start n.automaton).lookaheadFor g t) := by
  unfold lookaheadFor
  cases t.move with
  | shift _ _ => exact answered_shiftLookahead h t.origin
  | reduce _ =>
    rw [automaton_start]
    cases n.automaton.item t.origin with
    | error e => exact ⟨rfl, h⟩
    | ok item =>
      have hreduce := answered_reduceLookahead h (item.left g) t.symbol
      exact ⟨congrArg Except.ok hreduce.answer, hreduce.coherent⟩
  | goto _ => exact ⟨rfl, h⟩
  | accept => exact ⟨rfl, h⟩

/-! ## Changes -/

/-- What is remembered does not depend on transitions. -/
theorem coherent_setTransitions (id : StateId) (ts : List Transition) :
    (n.setTransitions id ts).Coherent g := by
  have hbare := bare_setTransitions n id ts
  have htable : (n.setTransitions id ts).automaton.followTable g = n.automaton.followTable g := by
    rw [← Automaton.followTable_bare, hbare, Automaton.followTable_bare]
  refine { follow := fun follow e => ?_, firsts := fun site set e => ?_ }
  · rw [htable]
    exact h.follow follow e
  · rw [htable, Automaton.item_of_bare hbare]
    exact h.firsts site set e

theorem coherent_addState (set : ItemSet) : (n.addState set).2.Coherent g := by
  unfold addState
  cases n.automaton.stateWith? set with
  | some id => exact h
  | none => exact coherent_start g _

/-- The lookahead that is put in place is the one that would be without memory. -/
theorem answered_computeLookahead (id : StateId) (index : Nat) :
    Answered g (n.computeLookahead g id index) ((start n.automaton).computeLookahead g id index) ∧
      (n.computeLookahead g id index).2.automaton =
        ((start n.automaton).computeLookahead g id index).2.automaton := by
  unfold computeLookahead
  rw [automaton_start]
  cases (do (← n.automaton.state id).transition index : Except Failure Transition) with
  | error e => exact ⟨⟨rfl, h⟩, rfl⟩
  | ok t =>
    have ht := answered_lookaheadFor h t
    have hasked := automaton_lookaheadFor g n t
    have hfresh := automaton_lookaheadFor g (start n.automaton) t
    dsimp only
    generalize n.lookaheadFor g t = asked at ht hasked ⊢
    generalize (start n.automaton).lookaheadFor g t = fresh at ht hfresh ⊢
    obtain ⟨l, m⟩ := asked
    obtain ⟨l', m'⟩ := fresh
    obtain rfl : l = l' := ht.answer
    have hm : m.automaton = m'.automaton := hasked.trans hfresh.symm
    cases l with
    | error e => exact ⟨⟨rfl, ht.coherent⟩, hm⟩
    | ok l =>
      refine ⟨⟨rfl, coherent_setTransitions ht.coherent id _⟩, ?_⟩
      simp only [setTransitions, hm]

theorem coherent_perform (op : Operation) : (n.perform g op).Coherent g := by
  cases op with
  | addState set => exact coherent_addState h set
  | setTransitions id ts => exact coherent_setTransitions h id ts
  | computeLookahead id index => exact (answered_computeLookahead h id index).1.coherent
  | ask q => exact (answered_ask h q).coherent

/-- What a call does to the automaton it does without memory as well. -/
theorem automaton_perform (op : Operation) :
    (n.perform g op).automaton = ((start n.automaton).perform g op).automaton := by
  cases op with
  | addState set =>
    show (n.addState set).2.automaton = ((start n.automaton).addState set).2.automaton
    rw [automaton_addState, automaton_addState]
    rfl
  | setTransitions id ts => rfl
  | computeLookahead id index => exact (answered_computeLookahead h id index).2
  | ask q =>
    show (n.ask g q).2.automaton = ((start n.automaton).ask g q).2.automaton
    rw [automaton_ask, automaton_ask]
    rfl

theorem coherent_after (ops : List Operation) : (n.after (ops.map (g, ·))).Coherent g := by
  induction ops generalizing n with
  | nil => exact h
  | cons op rest ih => exact ih (coherent_perform h op)

omit h

/-- The session after some calls if everything is forgotten after each of them. -/
def afterForgetting (n : Session) (calls : List (Grammar × Operation)) : Session :=
  calls.foldl (fun n call => start (n.perform call.1 call.2).automaton) n

theorem automaton_after (h : n.Coherent g) (ops : List Operation) :
    (n.after (ops.map (g, ·))).automaton =
      ((start n.automaton).afterForgetting (ops.map (g, ·))).automaton := by
  induction ops generalizing n with
  | nil => rfl
  | cons op rest ih =>
    have hrest := ih (coherent_perform h op)
    rw [automaton_perform h op] at hrest
    exact hrest

/-- However a session got where it is, with one grammar, it answers every question as one with the
same automaton and no memory would, and answering changes no state and no transition.  A lookahead
that it computes is the same as well, and so is the automaton that all calls together make. -/
theorem caches_transparent (g : Grammar) (a : Automaton) (ops : List Operation) :
    let n := (start a).after (ops.map (g, ·))
    (∀ q : Question, (n.ask g q).1 = ((start n.automaton).ask g q).1 ∧
      (n.ask g q).2.automaton = n.automaton) ∧
    (∀ (id : StateId) (index : Nat),
      (n.computeLookahead g id index).1 = ((start n.automaton).computeLookahead g id index).1 ∧
      (n.computeLookahead g id index).2.automaton =
        ((start n.automaton).computeLookahead g id index).2.automaton) ∧
    n.automaton = ((start a).afterForgetting (ops.map (g, ·))).automaton := by
  intro n
  have hn : n.Coherent g := coherent_after (coherent_start g a) ops
  refine ⟨fun q => ⟨(answered_ask hn q).answer, automaton_ask g n q⟩, fun id index => ?_,
    automaton_after (coherent_start g a) ops⟩
  obtain ⟨hanswered, hautomaton⟩ := answered_computeLookahead hn id index
  exact ⟨hanswered.answer, hautomaton⟩

end Session
end ShiftReduce
