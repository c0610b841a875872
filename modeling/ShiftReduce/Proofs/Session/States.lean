/-
The states of a session, whatever it is asked to do.

A session is told to add states and to replace transitions, and asked about first and follow
sets, in any order and with any handles.  States are known in three ways: by their place in the
list, by comparing their items with those of a set, and by the sorted list of their items as the
key of a table.  `Automaton.Numbered` is what every call keeps up, and from it follows that the
three never disagree (`states_of_calls`).  Only `addState` can add a state; to every other call
the states are at most relieved of their transitions, so `Automaton.bare` says all there is to say
about those.
-/
import ShiftReduce.Proofs.Automaton.Bare
import ShiftReduce.Proofs.Automaton.Growth

namespace ShiftReduce

/-! ## Ways to find a state -/

/-- Numbers of states under the keys of their item sets. -/
abbrev KeyTable := List (List Item × StateId)

/-- Enters a set under the next number, unless its key is there. -/
def KeyTable.enter (table : KeyTable) (set : ItemSet) : KeyTable :=
  match table.lookup set.key with
  | some _ => table
  | none => table ++ [(set.key, Handle.ofNat table.length)]

namespace Automaton

/-- The states under the keys of their item sets. -/
def keyTable (a : Automaton) : KeyTable := a.states.map fun s => (s.itemSet.key, s.id)

/-- Looking for a key finds the state that comparing the items finds. -/
theorem lookup_keyTable (a : Automaton) (set : ItemSet) :
    a.keyTable.lookup set.key = a.stateWith? set := by
  unfold keyTable stateWith?
  induction a.states with
  | nil => rfl
  | cons s rest ih =>
    rw [List.map_cons, List.lookup_cons, List.find?_cons]
    by_cases h : s.itemSet.same set = true
    · have hkey : set.key = s.itemSet.key := (ItemSet.key_eq_iff.mpr (ItemSet.same_iff.mp h)).symm
      rw [hkey, beq_self_eq_true, h]
      rfl
    · have hkey : set.key ≠ s.itemSet.key := fun e =>
        h (ItemSet.same_iff.mpr (ItemSet.key_eq_iff.mp e.symm))
      rw [beq_eq_false_iff_ne.mpr hkey, Bool.eq_false_iff.mpr h]
      exact ih

theorem keyTable_addState (a : Automaton) (set : ItemSet) :
    (a.addState set).2.keyTable = a.keyTable.enter set := by
  rw [KeyTable.enter, lookup_keyTable, addState]
  cases a.stateWith? set with
  | some id => rfl
  | none =>
    show (a.states ++ [State.make (Handle.ofNat a.size) set]).map _ = _
    rw [List.map_append, keyTable, List.length_map]
    rfl

theorem keyTable_bare (a : Automaton) : a.bare.keyTable = a.keyTable :=
  List.map_map

theorem keyTable_of_bare {a b : Automaton} (h : b.bare = a.bare) : b.keyTable = a.keyTable := by
  rw [← keyTable_bare, h, keyTable_bare]

theorem extends_of_bare {a b : Automaton} (h : b.bare = a.bare) :
    b.Extends a ∧ b.size = a.size := by
  have hstates : b.states.map (fun s => State.make s.id s.itemSet) =
      a.states.map fun s => State.make s.id s.itemSet := congrArg Automaton.states h
  constructor
  · intro n s hs
    have hn := congrArg (·[n]?) hstates
    simp only [List.getElem?_map, hs] at hn
    obtain ⟨s', hs', e⟩ := Option.map_eq_some_iff.mp hn
    have hid := congrArg State.id e
    have hset := congrArg State.itemSet e
    exact ⟨s', hs', hid, hset⟩
  · have hlength := congrArg List.length hstates
    rw [List.length_map, List.length_map] at hlength
    exact hlength

namespace Numbered

variable {a : Automaton} (p : Numbered a)

include p

theorem of_bare {b : Automaton} (h : b.bare = a.bare) : Numbered b := by
  obtain ⟨hextends, hsize⟩ := extends_of_bare h
  exact p.of_extends hextends hsize

/-- The state that comparing finds is the one that has the items. -/
theorem stateWith?_eq_some_iff (hsize : a.size ≤ handleSpan) {id : StateId} {set : ItemSet} :
    a.stateWith? set = some id ↔ a.Holds id set := by
  unfold stateWith?
  rw [Option.map_eq_some_iff]
  constructor
  · rintro ⟨s, hfound, rfl⟩
    obtain ⟨n, hn⟩ := List.mem_iff_getElem?.mp (List.mem_of_find?_eq_some hfound)
    have hsame := List.find?_some hfound
    refine ⟨s, ?_, ItemSet.same_iff.mp hsame⟩
    rw [p.index_id hsize hn]
    exact hn
  · rintro ⟨s, hs, hitems⟩
    have hsame := ItemSet.same_iff.mpr hitems
    cases hfound : a.states.find? fun s => s.itemSet.same set with
    | none => exact absurd hsame (List.find?_eq_none.mp hfound s (List.mem_of_getElem? hs))
    | some s' =>
      obtain ⟨n, hn⟩ := List.mem_iff_getElem?.mp (List.mem_of_find?_eq_some hfound)
      have hsame' := List.find?_some hfound
      have hitems' := ItemSet.same_iff.mp hsame'
      have hplace : n = id.index :=
        p.eq_of_items hn hs fun item => (hitems' item).trans (hitems item).symm
      refine ⟨s', rfl, ?_⟩
      rw [p.id_eq n s' hn, hplace, Handle.ofNat_index]

theorem stateWith?_eq_none_iff (hsize : a.size ≤ handleSpan) {set : ItemSet} :
    a.stateWith? set = none ↔ ∀ id, ¬ a.Holds id set := by
  rw [Option.eq_none_iff_forall_ne_some]
  exact forall_congr' fun id => not_congr (p.stateWith?_eq_some_iff hsize)

end Numbered
end Automaton

namespace Session

/-! ## Calls -/

/-- What a session can be asked. -/
inductive Question where
  /-- The terminals that follow a symbol. -/
  | follow (x : SymbolId)
  /-- The terminals that can come at the dot of an item. -/
  | first (site : Site)
  /-- The terminals that can come behind the symbol at the dot of an item. -/
  | behind (site : Site)
  | shift (origin : Site)
  | reduce (left trigger : SymbolId)

def Question.Answer : Question → Type
  | .follow _ => SymbolSet
  | .first _ => Except Failure SymbolSet
  | .behind _ => Except Failure SymbolSet
  | .shift _ => Except Failure Lookahead
  | .reduce _ _ => Lookahead

def ask (g : Grammar) (n : Session) : (q : Question) → q.Answer × Session
  | .follow x => n.followOf g x
  | .first site => n.firstSet g site
  | .behind site => n.followSet g site
  | .shift origin => n.shiftLookahead g origin
  | .reduce left trigger => n.reduceLookahead g left trigger

/-- What a session can be told to do. -/
inductive Operation where
  | addState (set : ItemSet)
  | setTransitions (id : StateId) (ts : List Transition)
  | computeLookahead (id : StateId) (index : Nat)
  | ask (q : Question)

/-- The session after one call. -/
def perform (n : Session) (g : Grammar) : Operation → Session
  | .addState set => (n.addState set).2
  | .setTransitions id ts => n.setTransitions id ts
  | .computeLookahead id index => (n.computeLookahead g id index).2
  | .ask q => (n.ask g q).2

/-- The session after some calls, each with a grammar of its own. -/
def after (n : Session) (calls : List (Grammar × Operation)) : Session :=
  calls.foldl (fun n call => n.perform call.1 call.2) n

/-- Only the sets that states are added for are entered. -/
def Operation.enter (table : KeyTable) : Operation → KeyTable
  | .addState set => table.enter set
  | _ => table

/-- The table of keys after some calls. -/
def keysAfter (calls : List (Grammar × Operation)) : KeyTable :=
  calls.foldl (fun table call => call.2.enter table) []

/-! ## What calls do to the automaton -/

variable (g : Grammar) (n : Session)

@[simp] theorem automaton_table : (n.table g).2.automaton = n.automaton := by
  unfold table
  cases n.follow? <;> rfl

@[simp] theorem automaton_followOf (x : SymbolId) :
    (n.followOf g x).2.automaton = n.automaton :=
  automaton_table g n

@[simp] theorem automaton_firstSet (site : Site) :
    (n.firstSet g site).2.automaton = n.automaton := by
  unfold firstSet
  cases n.firsts.lookup site with
  | some set => rfl
  | none =>
    cases n.automaton.item site with
    | error e => rfl
    | ok item => exact automaton_table g n

@[simp] theorem automaton_followSet (site : Site) :
    (n.followSet g site).2.automaton = n.automaton := by
  unfold followSet
  cases n.automaton.followSource g site with
  | error e => rfl
  | ok source =>
    cases source with
    | ofSymbol x => exact automaton_followOf g n x
    | atSite site => exact automaton_firstSet g n site

@[simp] theorem automaton_shiftLookahead (origin : Site) :
    (n.shiftLookahead g origin).2.automaton = n.automaton := by
  unfold shiftLookahead
  cases n.automaton.advancedSite g origin with
  | error e => rfl
  | ok site => exact automaton_firstSet g n site

@[simp] theorem automaton_reduceLookahead (left trigger : SymbolId) :
    (n.reduceLookahead g left trigger).2.automaton = n.automaton := by
  unfold reduceLookahead
  split
  · rfl
  · exact automaton_table g n

/-- No question changes a state or a transition. -/
theorem automaton_ask (q : Question) : (n.ask g q).2.automaton = n.automaton := by
  cases q with
  | follow x => exact automaton_followOf g n x
  | first site => exact automaton_firstSet g n site
  | behind site => exact automaton_followSet g n site
  | shift origin => exact automaton_shiftLookahead g n origin
  | reduce left trigger => exact automaton_reduceLookahead g n left trigger

@[simp] theorem automaton_lookaheadFor (t : Transition) :
    (n.lookaheadFor g t).2.automaton = n.automaton := by
  unfold lookaheadFor
  cases t.move with
  | shift _ _ => exact automaton_shiftLookahead g n t.origin
  | reduce _ =>
    cases n.automaton.item t.origin with
    | error e => rfl
    | ok item => exact automaton_reduceLookahead g n (item.left g) t.symbol
  | goto _ => rfl
  | accept => rfl

theorem bare_setTransitions (id : StateId) (ts : List Transition) :
    (n.setTransitions id ts).automaton.bare = n.automaton.bare := by
  apply congrArg Automaton.mk
  apply List.ext_getElem?
  intro i
  rw [setTransitions, List.getElem?_map, List.getElem?_map, List.getElem?_modify]
  cases n.automaton.states[i]? with
  | none => rfl
  | some s =>
    show some (State.make (if id.index = i then { s with transitions := ts } else s).id _) = _
    split <;> rfl

theorem bare_computeLookahead (id : StateId) (index : Nat) :
    (n.computeLookahead g id index).2.automaton.bare = n.automaton.bare := by
  unfold computeLookahead
  dsimp only
  split
  · rfl
  · rename_i t _
    have hautomaton := automaton_lookaheadFor g n t
    split
    · rename_i h
      rw [h] at hautomaton
      exact congrArg Automaton.bare hautomaton
    · rename_i l n' h
      rw [h] at hautomaton
      rw [bare_setTransitions, hautomaton]

/-- Apart from adding a state, a call at most changes transitions. -/
theorem perform_cases (op : Operation) :
    (∃ set, op = .addState set ∧ n.perform g op = (n.addState set).2) ∨
      (∀ table, op.enter table = table) ∧
        (n.perform g op).automaton.bare = n.automaton.bare := by
  cases op with
  | addState set => exact Or.inl ⟨set, rfl, rfl⟩
  | setTransitions id ts => exact Or.inr ⟨fun _ => rfl, bare_setTransitions n id ts⟩
  | computeLookahead id index => exact Or.inr ⟨fun _ => rfl, bare_computeLookahead g n id index⟩
  | ask q => exact Or.inr ⟨fun _ => rfl, congrArg Automaton.bare (automaton_ask g n q)⟩

/-- A session adds states as its automaton does. -/
theorem automaton_addState (set : ItemSet) :
    (n.addState set).2.automaton = (n.automaton.addState set).2 := by
  rw [addState, Automaton.addState]
  cases n.automaton.stateWith? set <;> rfl

variable {g n}

/-! ## What every call keeps up -/

theorem numbered_perform (p : n.automaton.Numbered) (op : Operation) :
    (n.perform g op).automaton.Numbered := by
  rcases perform_cases g n op with ⟨set, _, e⟩ | ⟨_, hbare⟩
  · rw [e, automaton_addState]
    exact p.addState set
  · exact p.of_bare hbare

theorem numbered_after (p : n.automaton.Numbered) (calls : List (Grammar × Operation)) :
    (n.after calls).automaton.Numbered := by
  induction calls generalizing n with
  | nil => exact p
  | cons call rest ih => exact ih (numbered_perform p call.2)

theorem keyTable_perform (op : Operation) :
    (n.perform g op).automaton.keyTable = op.enter n.automaton.keyTable := by
  rcases perform_cases g n op with ⟨set, rfl, e⟩ | ⟨hkeep, hbare⟩
  · rw [e, automaton_addState]
    exact n.automaton.keyTable_addState set
  · rw [hkeep]
    exact Automaton.keyTable_of_bare hbare

/-- The table of keys that is kept up along the way is that of the states. -/
theorem keysAfter_eq (calls : List (Grammar × Operation)) :
    keysAfter calls = ((start .empty).after calls).automaton.keyTable := by
  have run : ∀ (calls : List (Grammar × Operation)) (n : Session),
      calls.foldl (fun table call => call.2.enter table) n.automaton.keyTable =
        (n.after calls).automaton.keyTable := by
    intro calls
    induction calls with
    | nil => exact fun _ => rfl
    | cons call rest ih =>
      intro n
      rw [List.foldl_cons, ← keyTable_perform (g := call.1)]
      exact ih (n.perform call.1 call.2)
  exact run calls (start .empty)

/-- States stand under their numbers and are told apart by their items, and asking for a set and
adding it go by the items alone. -/
structure KnownByItems (n : Session) : Prop where
  index_id : ∀ (i : Nat) (s : State), n.automaton.states[i]? = some s → s.id.index = i
  eq_of_items : ∀ (i j : Nat) (s t : State), n.automaton.states[i]? = some s →
    n.automaton.states[j]? = some t →
    (∀ item, item ∈ s.itemSet.items ↔ item ∈ t.itemSet.items) → i = j
  isSome_iff : ∀ set, (n.automaton.stateWith? set).isSome = true ↔ ∃ id, n.automaton.Holds id set
  found_iff : ∀ set id, n.automaton.stateWith set = .ok id ↔ n.automaton.Holds id set
  missing : ∀ set, (∀ id, ¬ n.automaton.Holds id set) →
    n.automaton.stateWith set = .error .stateNotFound
  kept : ∀ set id, n.automaton.Holds id set → n.addState set = (id, n)
  added : ∀ set, (∀ id, ¬ n.automaton.Holds id set) →
    (n.addState set).1.index = n.automaton.size ∧
      (n.addState set).2.automaton.states =
        n.automaton.states ++ [.make (n.addState set).1 set]

theorem knownByItems (p : n.automaton.Numbered) (hsize : n.automaton.size < handleSpan) :
    n.KnownByItems := by
  have hle : n.automaton.size ≤ handleSpan := Nat.le_of_lt hsize
  have hsome (set : ItemSet) (id : StateId) :
      n.automaton.stateWith? set = some id ↔ n.automaton.Holds id set :=
    p.stateWith?_eq_some_iff hle
  have hnone (set : ItemSet) (h : ∀ id, ¬ n.automaton.Holds id set) :
      n.automaton.stateWith? set = none :=
    (p.stateWith?_eq_none_iff hle).mpr h
  refine
    { index_id := fun _ _ => p.index_id hle
      eq_of_items := fun _ _ _ _ => p.eq_of_items
      isSome_iff := fun set => ?_
      found_iff := fun set id => ?_
      missing := fun set h => ?_
      kept := fun set id h => ?_
      added := fun set h => ?_ }
  · rw [Option.isSome_iff_exists]
    exact exists_congr (hsome set)
  · rw [← hsome, Automaton.stateWith]
    cases n.automaton.stateWith? set with
    | none => exact iff_of_false (by intro e; cases e) (by intro e; cases e)
    | some found => rw [Except.ok.injEq, Option.some.injEq]
  · rw [Automaton.stateWith, hnone set h]
  · rw [addState, (hsome set id).mpr h]
  · rw [addState, Automaton.addState, hnone set h]
    exact ⟨Handle.index_ofNat_of_lt hsize, rfl⟩

/-- Along any sequence of calls, states are known by their items; looking for the key of a set in
a table of keys, kept up as states are added, is looking for its items among the states; and two
sets are the same, have the same key and hold the same items all at once. -/
theorem states_of_calls (calls : List (Grammar × Operation))
    (hsize : ((start .empty).after calls).automaton.size < handleSpan) :
    ((start .empty).after calls).KnownByItems ∧
    (∀ set : ItemSet, (keysAfter calls).lookup set.key =
      ((start .empty).after calls).automaton.stateWith? set) ∧
    ∀ s t : ItemSet, (s.same t = true ↔ s.key = t.key) ∧
      (s.key = t.key ↔ ∀ item, item ∈ s.items ↔ item ∈ t.items) := by
  refine ⟨knownByItems (numbered_after .empty calls) hsize, fun set => ?_, fun s t => ⟨?_, ?_⟩⟩
  · rw [keysAfter_eq, Automaton.lookup_keyTable]
  · rw [ItemSet.same_iff, ItemSet.key_eq_iff]
  · exact ItemSet.key_eq_iff

/-- `S -> • A` before `$accept -> • S`, and the other way round. -/
def forwardSet : ItemSet := .ofList [⟨Handle.ofNat 1, 0⟩, ⟨Handle.ofNat 0, 0⟩]

def backwardSet : ItemSet := .ofList [⟨Handle.ofNat 0, 0⟩, ⟨Handle.ofNat 1, 0⟩]

/-- A set, then the same in another order, then its closure; a transition is put in and its
lookahead computed between, and once there is no such transition. -/
def mixedCalls : List (Grammar × Operation) :=
  [.addState forwardSet, .ask (.follow (Handle.ofNat 2)),
    .setTransitions (Handle.ofNat 0)
      [⟨⟨Handle.ofNat 0, 0⟩, Handle.ofNat 4, .reduce .any⟩],
    .computeLookahead (Handle.ofNat 0) 0, .addState backwardSet,
    .computeLookahead (Handle.ofNat 7) 1, .addState (forwardSet.close ItemSet.mutualGrammar),
    .ask (.behind ⟨Handle.ofNat 1, 3⟩)].map (ItemSet.mutualGrammar, ·)

theorem states_of_calls_mixed :
    ((start .empty).after mixedCalls).automaton.size = 2 ∧
      ((start .empty).after mixedCalls).automaton.size < handleSpan ∧
      ((start .empty).after mixedCalls).KnownByItems ∧
      ((start .empty).after mixedCalls).automaton.stateWith backwardSet = .ok (Handle.ofNat 0) ∧
      ((start .empty).after mixedCalls).automaton.stateWith .empty = .error .stateNotFound ∧
      (keysAfter mixedCalls).lookup backwardSet.key = some (Handle.ofNat 0) ∧
      forwardSet ≠ backwardSet ∧ forwardSet.key = backwardSet.key := by
  have hsize : ((start .empty).after mixedCalls).automaton.size = 2 := by decide +kernel
  have hlt : ((start .empty).after mixedCalls).automaton.size < handleSpan := by
    rw [hsize]
    decide
  obtain ⟨hknown, hkeys, hsets⟩ := states_of_calls mixedCalls hlt
  have hfound : ((start .empty).after mixedCalls).automaton.stateWith? backwardSet =
      some (Handle.ofNat 0) := by
    decide +kernel
  have hmissing : ∀ id, ¬ ((start .empty).after mixedCalls).automaton.Holds id .empty := by
    intro id hid
    have hsome := (hknown.isSome_iff _).mpr ⟨id, hid⟩
    have hnone : (((start .empty).after mixedCalls).automaton.stateWith? .empty).isSome =
        false := by
      decide +kernel
    rw [hnone] at hsome
    cases hsome
  refine ⟨hsize, hlt, hknown, ?_, hknown.missing _ hmissing, (hkeys _).trans hfound, by decide,
    (hsets _ _).1.mp (by decide)⟩
  rw [Automaton.stateWith, hfound]

end Session
end ShiftReduce
