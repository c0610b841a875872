/-
Lookaheads admit what can come.

`Lookahead.Admits` says which input a lookahead lets through.  The lookahead of a
shift is a first set, so little is to be shown about it.  That of a reduction looks
two symbols behind a nonterminal: `enclosing` has the nonterminals that end with
it, and the symbol after the next is found where the next one stands at the dot of
an item behind one of them, or else the next one is hidden in a nonterminal and
nothing is demanded.
-/
import ShiftReduce.Proofs.Automaton.Canonical
import ShiftReduce.Proofs.Checked.Survey

namespace ShiftReduce

namespace Lookahead

/-- Each position constrained has one of the symbols allowed there. -/
def Admits (l : Lookahead) (rest : List SymbolId) : Prop :=
  ∀ (i : Nat) (s : SymbolSet), l.positions[i]? = some s → ∃ x, rest[i]? = some x ∧ x ∈ s

theorem admits_any (rest : List SymbolId) : any.Admits rest := fun i s h => by
  rw [any, List.getElem?_nil] at h
  cases h

theorem admits_ofSet {s : SymbolSet} {x : SymbolId} {rest : List SymbolId} (h : x ∈ s) :
    (ofSet s).Admits (x :: rest) := by
  rw [ofSet]
  split
  · exact admits_any _
  · intro i s' hs'
    cases i with
    | zero =>
      cases hs'
      exact ⟨x, rfl, h⟩
    | succ i => cases hs'

theorem disjoint_eq_false_of_admits {l l' : Lookahead} {rest : List SymbolId} (h : l.Admits rest)
    (h' : l'.Admits rest) : l.disjoint l' = false := by
  rw [Bool.eq_false_iff, disjoint, Ne, List.any_eq_true]
  rintro ⟨⟨s, s'⟩, hmem, hdisjoint⟩
  obtain ⟨i, hi⟩ := List.mem_iff_getElem?.mp hmem
  obtain ⟨hs, hs'⟩ := List.getElem?_zip_eq_some.mp hi
  obtain ⟨x, hx, hxs⟩ := h i s hs
  obtain ⟨y, hy, hys'⟩ := h' i s' hs'
  rw [hx] at hy
  cases hy
  exact SymbolSet.disjoint_iff.mp hdisjoint x hxs hys'

/-! ### How far the input fits -/

/-- The number of sets up to the first one that has not got the symbol at its place. -/
def fitting : List SymbolSet → List SymbolId → Nat
  | [], _ => 0
  | _ :: _, [] => 0
  | s :: more, x :: rest => if x ∈ s then fitting more rest + 1 else 0

/-- The number of positions up to the first one that does not allow the input. -/
def reach (l : Lookahead) (rest : List SymbolId) : Nat := fitting l.positions rest

theorem fitting_le_length (sets : List SymbolSet) (rest : List SymbolId) :
    fitting sets rest ≤ sets.length := by
  induction sets generalizing rest with
  | nil => exact Nat.zero_le 0
  | cons s more ih =>
    cases rest with
    | nil => exact Nat.zero_le _
    | cons x rest =>
      rw [fitting]
      split
      · exact Nat.succ_le_succ (ih rest)
      · exact Nat.zero_le _

theorem reach_le_size (l : Lookahead) (rest : List SymbolId) : l.reach rest ≤ l.size :=
  fitting_le_length l.positions rest

theorem admits_cons {s : SymbolSet} {more : List SymbolSet} {x : SymbolId}
    {rest : List SymbolId} : (Lookahead.mk (s :: more)).Admits (x :: rest) ↔
      x ∈ s ∧ (Lookahead.mk more).Admits rest := by
  constructor
  · intro h
    obtain ⟨y, hy, hmem⟩ := h 0 s rfl
    cases hy
    exact ⟨hmem, fun i s' hs' => h (i + 1) s' hs'⟩
  · rintro ⟨hmem, h⟩ i s' hs'
    cases i with
    | zero =>
      cases hs'
      exact ⟨x, rfl, hmem⟩
    | succ i => exact h i s' hs'

/-- What a lookahead admits fits it to its end. -/
theorem admits_iff_reach {l : Lookahead} {rest : List SymbolId} :
    l.Admits rest ↔ l.reach rest = l.size := by
  obtain ⟨sets⟩ := l
  show _ ↔ fitting sets rest = sets.length
  induction sets generalizing rest with
  | nil => exact ⟨fun _ => rfl, fun _ => admits_any rest⟩
  | cons s more ih =>
    cases rest with
    | nil =>
      refine ⟨fun h => ?_, fun h => ?_⟩
      · obtain ⟨x, hx, _⟩ := h 0 s rfl
        cases hx
      · cases h
    | cons x rest =>
      rw [admits_cons, ih, fitting]
      by_cases hx : x ∈ s
      · simp [hx]
      · simp [hx]

end Lookahead

namespace Automaton

theorem item_of_locate {g : Grammar} {a : Automaton} {item : Item} {site : Site}
    (hid : ∀ (n : Nat) (s : State), a.states[n]? = some s → s.id.index = n)
    (h : a.locate g item = .ok site) : a.item site = .ok item := by
  simp only [locate] at h
  split at h
  · rename_i found hfound
    cases h
    obtain ⟨s, hs, hposition⟩ := List.exists_of_findSome?_eq_some hfound
    obtain ⟨position, hfind, rfl⟩ := Option.map_eq_some_iff.mp hposition
    obtain ⟨hlt, hitem, _⟩ := List.findIdx?_eq_some_iff_getElem.mp hfind
    obtain ⟨n, hn⟩ := List.mem_iff_getElem?.mp hs
    refine item_eq_ok.mpr ⟨s, ?_, ?_⟩
    · rw [hid n s hn]
      exact hn
    · rw [List.getElem?_eq_getElem hlt, beq_iff_eq.mp hitem]
  · obtain ⟨text, _, h⟩ := bind_eq_ok.mp h
    cases h

/-- Where the moved item of a site is found. -/
theorem advancedSite_eq_ok {g : Grammar} {a : Automaton} {origin site : Site} {item : Item}
    {x : SymbolId} (horigin : a.item origin = .ok item) (hitem : item.BelongsTo g)
    (hx : item.next? g = some x) : a.advancedSite g origin = .ok site ↔
      a.locate g { item with dot := item.dot + 1 } = .ok site := by
  rw [advancedSite, horigin]
  show (Checked.advance g item >>= _) = _ ↔ _
  rw [Checked.advance_eq_ok hitem, Item.advance?_of_next? hx]
  rfl

end Automaton

namespace Survey

variable {g : Grammar} (wf : g.WellFormed) {a : Automaton}

include wf

/-- The lookahead of a shift admits what can stand at the dot of its item once the
dot has moved. -/
theorem shiftLookahead_admits
    (hid : ∀ (n : Nat) (s : State), a.states[n]? = some s → s.id.index = n) {origin : Site}
    {item : Item} {x : SymbolId} {l : Lookahead} {rest : List SymbolId}
    (hl : (Survey.make g a).shiftLookahead origin = .ok l) (horigin : a.item origin = .ok item)
    (hitem : item.BelongsTo g) (hx : item.next? g = some x)
    (h : a.Ahead g { item with dot := item.dot + 1 } rest) : l.Admits rest := by
  obtain ⟨site, hsite, _⟩ := bind_eq_ok.mp hl
  have hfound := Automaton.item_of_locate hid
    ((Automaton.advancedSite_eq_ok horigin hitem hx).mp hsite)
  have hmoved : Item.BelongsTo g { item with dot := item.dot + 1 } :=
    Checked.belongsTo_of_advance? hitem (Item.advance?_of_next? hx)
  cases (shiftLookahead_eq_ok wf hsite hfound hmoved).symm.trans hl
  obtain ⟨t, more, rfl, _⟩ := h.exists_cons wf
  exact Lookahead.admits_ofSet (h.mem_firstWith wf hitem.1)

/-! ## Reductions -/

/-- The nonterminals that end where one ends are closed under the items that make
it so. -/
theorem enclosing_saturated {left : SymbolId} (hleft : left.index < g.symbols.length) :
    left ∈ (Survey.make g a).enclosing left ∧
    ∀ (item : Item) (x : SymbolId), item ∈ a.items g → item.previous? g = some x →
      x ∈ (Survey.make g a).enclosing left → g.sequenceNullable (item.rest g) = true →
        item.left g ≠ .accept → item.left g ∈ (Survey.make g a).enclosing left := by
  have saturated := saturate_foldl_fixed SymbolSet.size g.symbols.length
    (P := fun s : SymbolSet => s.Below g.symbols.length ∧ left ∈ s)
    (f := fun (known : SymbolSet) (item : Item) =>
      if (item.previous? g).any known.contains && g.sequenceNullable (item.rest g) &&
        item.left g != .accept then insert (item.left g) known else known)
    (fun s item (hitem : item ∈ a.items g) hs => by
      split
      · have hbelongs := Automaton.belongsTo_of_mem_items wf hitem
        exact ⟨hs.1.insert (Grammar.lt_of_isNonterminal (wf.isNonterminal_leftOf hbelongs.1)),
          SymbolSet.mem_insert.mpr (Or.inr hs.2)⟩
      · exact hs)
    (fun s item _ _ => by
      split
      · exact SymbolSet.eq_or_size_lt fun x hx => SymbolSet.mem_insert.mpr (Or.inr hx)
      · exact Or.inl rfl)
    (fun s hs => hs.1.size_le) (a := {left})
    ⟨(SymbolSet.Below.empty _).insert hleft, SymbolSet.mem_singleton.mpr rfl⟩
  obtain ⟨⟨_, hself⟩, hfixed⟩ := saturated
  refine ⟨hself, fun item x hitem hx hmem hnullable haccept => ?_⟩
  have hstep := hfixed item hitem
  have hany : (item.previous? g).any ((Survey.make g a).enclosing left).contains = true := by
    rw [hx]
    exact SymbolSet.contains_iff.mpr hmem
  have hcond : ((item.previous? g).any ((Survey.make g a).enclosing left).contains &&
      g.sequenceNullable (item.rest g) && item.left g != .accept) = true := by
    rw [hany, hnullable, bne_iff_ne.mpr haccept]
    rfl
  have hinsert := (if_pos hcond).symm.trans hstep
  show item.left g ∈ (Survey.make g a).enclosing left
  rw [← show insert (item.left g) ((Survey.make g a).enclosing left) =
    (Survey.make g a).enclosing left from hinsert]
  exact SymbolSet.mem_insert.mpr (Or.inl rfl)

omit wf in
theorem mem_leading_iff {item : Item} {x : SymbolId} {n : Nat} :
    (x, n) ∈ (Survey.make g a).leading item ↔ ∃ front back : List SymbolId,
      item.rest g = front ++ x :: back ∧ n = item.dot + front.length ∧
        ∀ y ∈ front, g.isNullable y = true := by
  constructor
  · intro h
    obtain ⟨hle, hget⟩ := List.mk_mem_zipIdx_iff_le_and_getElem?_sub.mp h
    obtain ⟨front, back, hrest, hlength, hfront⟩ := exists_of_getElem?_leadingSymbols hget
    exact ⟨front, back, hrest, by omega, hfront⟩
  · rintro ⟨front, back, hrest, rfl, hfront⟩
    refine List.mk_add_mem_zipIdx_iff_getElem?.mpr ?_
    show (leadingSymbols g.nullable (item.rest g))[front.length]? = some x
    rw [hrest]
    exact getElem?_leadingSymbols hfront

omit wf in
theorem hidden_iff {item : Item} {trigger : SymbolId} :
    (Survey.make g a).hidden trigger item = true ↔ ∃ (front back : List SymbolId) (x : SymbolId),
      item.rest g = front ++ x :: back ∧ (∀ y ∈ front, g.isNullable y = true) ∧
        g.isNonterminal x = true ∧ trigger ∈ g.firstOf x := by
  rw [hidden, List.any_eq_true]
  constructor
  · rintro ⟨⟨x, n⟩, hentry, h⟩
    obtain ⟨hx, hfirst⟩ := Bool.and_eq_true_iff.mp h
    obtain ⟨front, back, hrest, _, hfront⟩ := mem_leading_iff.mp hentry
    exact ⟨front, back, x, hrest, hfront, hx, SymbolSet.contains_iff.mp hfirst⟩
  · rintro ⟨front, back, x, hrest, hfront, hx, hfirst⟩
    refine ⟨(x, _), mem_leading_iff.mpr ⟨front, back, hrest, rfl, hfront⟩, ?_⟩
    exact Bool.and_eq_true_iff.mpr ⟨hx, SymbolSet.contains_iff.mpr hfirst⟩

omit wf in
/-- What an item tells about the symbol behind the trigger it tells at the dot behind the
trigger. -/
theorem mem_behind_iff {item : Item} {trigger u : SymbolId} :
    u ∈ (Survey.make g a).behind trigger item ↔ ∃ front back : List SymbolId,
      item.rest g = front ++ trigger :: back ∧ (∀ y ∈ front, g.isNullable y = true) ∧
        g.isTerminal trigger = true ∧ u ∈ Item.firstWith g (a.followTable g)
          { item with dot := item.dot + front.length + 1 } := by
  rw [behind, SymbolSet.mem_foldl_union, or_iff_right (SymbolSet.not_mem_empty u)]
  constructor
  · rintro ⟨⟨x, n⟩, hentry, hu⟩
    obtain ⟨hleading, h⟩ := List.mem_filter.mp hentry
    obtain ⟨hterminal, hx⟩ := Bool.and_eq_true_iff.mp h
    obtain rfl : x = trigger := beq_iff_eq.mp hx
    obtain ⟨front, back, hrest, rfl, hfront⟩ := mem_leading_iff.mp hleading
    exact ⟨front, back, hrest, hfront, hterminal, hu⟩
  · rintro ⟨front, back, hrest, hfront, hterminal, hu⟩
    refine ⟨(trigger, item.dot + front.length), List.mem_filter.mpr ⟨?_, ?_⟩, hu⟩
    · exact mem_leading_iff.mpr ⟨front, back, hrest, rfl, hfront⟩
    · exact Bool.and_eq_true_iff.mpr ⟨hterminal, beq_self_eq_true trigger⟩

omit wf in
/-- The rest of an item once its dot has moved on to somewhere in its rest. -/
theorem rest_of_rest {item : Item} {front back : List SymbolId} {x : SymbolId}
    (h : item.rest g = front ++ x :: back) :
    Item.rest g { item with dot := item.dot + front.length + 1 } = back := by
  show (g.rightOf item.rule).drop (item.dot + front.length + 1) = back
  rw [Nat.add_assoc, ← List.drop_drop]
  show (item.rest g).drop (front.length + 1) = back
  rw [h, ← List.drop_drop, List.drop_left]
  rfl

/-- Where what follows the dot of an item begins with the trigger and does not hide
it, the symbol behind the trigger is found. -/
theorem mem_behind_of_yield {item : Item} (hitem : item ∈ a.items g) {f : Forest}
    (hvalid : f.Valid g) (hroots : f.roots g = item.rest g)
    (hyield : ∀ y ∈ f.yield, g.isTerminal y = true) {v : List SymbolId}
    (hbehind : a.Behind g (item.left g) v) {trigger u : SymbolId} {more rest : List SymbolId}
    (hf : f.yield = trigger :: more) (hmore : more ++ v = u :: rest)
    (hhidden : (Survey.make g a).hidden trigger item = false) :
    u ∈ (Survey.make g a).behind trigger item := by
  have htrigger : g.isTerminal trigger = true := hyield trigger (hf ▸ List.mem_cons_self)
  obtain ⟨front, y, back, between, hsplit, hnullable, hback, hmore', hfirst, hy⟩ :=
    Forest.exists_leading wf hvalid htrigger hf
  have hrest : item.rest g = front ++ y :: back.roots g := hroots.symm.trans hsplit
  rcases hy with ⟨rfl, rfl⟩ | hn
  · refine mem_behind_iff.mpr ⟨front, _, hrest, hnullable, htrigger, ?_⟩
    have hahead : a.Ahead g { item with dot := item.dot + front.length + 1 } (u :: rest) := by
      refine ⟨back, v, hback, (rest_of_rest hrest).symm, fun z hz => hyield z ?_, hbehind, ?_⟩
      · rw [hf, hmore']
        exact List.mem_cons_of_mem _ hz
      · rw [← hmore, hmore']
        rfl
    exact hahead.mem_firstWith wf (Automaton.belongsTo_of_mem_items wf hitem).1
  · exact absurd (hidden_iff.mpr ⟨front, _, y, hrest, hnullable, hn, hfirst⟩)
      (Bool.eq_false_iff.mp hhidden)

/-- Behind a nonterminal that ends where `left` ends, the trigger stands at a dot
behind such a nonterminal. -/
theorem mem_behind {left x trigger u : SymbolId} {w rest : List SymbolId}
    (hleft : left.index < g.symbols.length) (h : a.Behind g x w) (hw : w = trigger :: u :: rest)
    (hx : x ∈ (Survey.make g a).enclosing left)
    (hhidden : ∀ item ∈ a.items g,
      (item.previous? g).any ((Survey.make g a).enclosing left).contains = true →
        (Survey.make g a).hidden trigger item = false) :
    ∃ item ∈ a.items g, (item.previous? g).any ((Survey.make g a).enclosing left).contains = true ∧
      u ∈ (Survey.make g a).behind trigger item := by
  induction h with
  | accept => cases hw
  | @step item x f v hitem hprevious hvalid hroots hyield hbehind ih =>
    cases hf : f.yield with
    | nil =>
      -- the rest vanishes, so the left side of the item ends here as well
      rw [hf] at hw
      have hw : v = trigger :: u :: rest := hw
      have hnullable := Forest.sequenceNullable_roots wf hvalid hf
      rw [hroots] at hnullable
      have haccept : item.left g ≠ .accept := by
        intro e
        rw [e] at hbehind
        have hend := hbehind.eq_of_accept wf
        rw [hw] at hend
        cases hend
      exact ih hw ((enclosing_saturated wf hleft).2 item x hitem hprevious hx hnullable haccept)
    | cons t more =>
      rw [hf] at hw
      obtain ⟨rfl, hmore⟩ := List.cons.inj hw
      have hany : (item.previous? g).any ((Survey.make g a).enclosing left).contains = true := by
        rw [hprevious]
        exact SymbolSet.contains_iff.mpr hx
      exact ⟨item, hitem, hany, mem_behind_of_yield wf hitem hvalid hroots hyield hbehind hf hmore
        (hhidden item hitem hany)⟩

/-- The lookahead of a reduction admits what can stand behind the trigger. -/
theorem reduceLookahead_admits {left trigger : SymbolId} {rest : List SymbolId}
    (hleft : left.index < g.symbols.length) (h : a.Behind g left (trigger :: rest)) :
    ((Survey.make g a).reduceLookahead left trigger).Admits rest := by
  simp only [reduceLookahead]
  split
  · exact Lookahead.admits_any rest
  · rename_i hend
    split
    · exact Lookahead.admits_any rest
    · rename_i hhidden
      obtain ⟨u, rest', rfl⟩ : ∃ u rest', rest = u :: rest' := by
        cases rest with
        | nil =>
          have hlast := h.getLast?_eq
          cases hlast
          exact absurd rfl hend
        | cons u rest' => exact ⟨u, rest', rfl⟩
      obtain ⟨item, hitem, hany, hu⟩ := mem_behind wf hleft h rfl
        (enclosing_saturated wf hleft).1 fun item hitem hany => by
          refine Bool.eq_false_iff.mpr fun hno => hhidden (List.any_eq_true.mpr ⟨item, ?_, hno⟩)
          exact List.mem_filter.mpr ⟨hitem, hany⟩
      refine Lookahead.admits_ofSet (SymbolSet.mem_foldl_union.mpr (Or.inr ⟨item, ?_, hu⟩))
      exact List.mem_filter.mpr ⟨hitem, hany⟩

end Survey

/-! ## Serving -/

namespace Automaton

/-- A transition is wanted on its symbol with this input behind the symbol: what a
shift moves the dot to, or what a reduction reduces to, can have that input behind
it.  A goto or an accept is wanted always. -/
def Wanted (g : Grammar) (a : Automaton) (t : Transition) (item : Item)
    (rest : List SymbolId) : Prop :=
  match t.move with
  | .shift _ _ => a.Ahead g { item with dot := item.dot + 1 } rest
  | .reduce _ => a.Behind g (item.left g) (t.symbol :: rest)
  | .goto _ | .accept => True

/-- One automaton serves another: whenever a transition of the other is wanted, it
has the same edge and admits the input. -/
def Serves (g : Grammar) (b a : Automaton) : Prop :=
  ∀ (n : Nat) (s s' : State) (t : Transition) (item : Item) (rest : List SymbolId),
    a.states[n]? = some s → b.states[n]? = some s' → t ∈ s.transitions →
      s.itemSet.items[t.origin.position]? = some item → a.Wanted g t item rest →
        ∃ t' ∈ s'.transitions, t'.edge = t.edge ∧ t'.lookahead.Admits rest

/-- A transition of the canonical collection looks nowhere ahead, so the collection
serves itself. -/
theorem Canonical.serves_self {g : Grammar} {a : Automaton} (hc : Canonical g a) :
    Serves g a a := by
  intro n s s' t item rest hs hs' ht _ _
  rw [hs] at hs'
  cases hs'
  obtain ⟨target, item, _, _, _, hprescribes⟩ := hc.prescribes_of_mem hs ht
  have hany : t.lookahead = .any := hprescribes.lookahead_eq
  exact ⟨t, ht, rfl, hany ▸ Lookahead.admits_any rest⟩

end Automaton
end ShiftReduce
