/-
Recursion under a parser that accepts all that the grammar derives.

Such a parser goes down into a recursion with the sentence behind it, and it looks two
symbols ahead and no further.  If something vanishes in front of the recursion, it reduces
that once for each round before it reads on; but with enough of the sentence ahead it cannot
tell how many rounds there are to be.  So it makes more reductions on one sentence than it
makes to accept it.  And if nothing is in front and all behind vanishes, a sentence has trees
of any size.

`Reaches.lockstep` says that what is not looked at makes no difference, and
`reaches_of_descent` is the run down into the recursion.
-/
import ShiftReduce.Proofs.Grammar.Recursion
import ShiftReduce.Proofs.Parser.Completeness
import ShiftReduce.Proofs.Parser.Soundness

namespace ShiftReduce

theorem take_append_congr {α : Type} {xs ys : List α} {n : Nat} (h : xs.take n = ys.take n)
    (zs : List α) : (zs ++ xs).take n = (zs ++ ys).take n := by
  have htake : xs.take (n - zs.length) = ys.take (n - zs.length) := by
    have hboth := congrArg (List.take (n - zs.length)) h
    rw [List.take_take, List.take_take, Nat.min_eq_left (Nat.sub_le _ _)] at hboth
    exact hboth
  rw [List.take_append, List.take_append, htake]

/-- From two copies on, the number of copies does not show in the first two entries. -/
theorem take_two_replicate {α : Type} (v rest : List α) (n : Nat) :
    ((List.replicate (n + 2) v).flatten ++ rest).take 2 =
      ((List.replicate 2 v).flatten ++ rest).take 2 := by
  cases v with
  | nil => simp
  | cons x more =>
    cases more with
    | nil => simp [List.replicate_succ]
    | cons y more => simp [List.replicate_succ]

/-- From two rounds on, two symbols do not tell how many there are. -/
theorem Grammar.Round.take_two_ahead {g : Grammar} (round : g.Round) (n : Nat) :
    (round.ahead (n + 2) ++ [SymbolId.endMarker]).take 2 =
      (round.ahead 2 ++ [SymbolId.endMarker]).take 2 := by
  rw [ahead, ahead, List.append_assoc, List.append_assoc, List.append_assoc, List.append_assoc]
  exact take_append_congr (take_two_replicate _ _ n) _

/-- A lookahead of one position looks at one symbol. -/
theorem Lookahead.Admits.congr {l : Lookahead} {xs ys : List SymbolId} (h : l.Admits xs)
    (hsize : l.size ≤ 1) (hsame : xs.take 1 = ys.take 1) : l.Admits ys := by
  intro i s hs
  have hi : i < 1 := Nat.lt_of_lt_of_le (List.getElem?_eq_some_iff.mp hs).1 hsize
  obtain ⟨x, hx, hmem⟩ := h i s hs
  refine ⟨x, ?_, hmem⟩
  rw [← List.getElem?_take_of_lt hi, ← hsame, List.getElem?_take_of_lt hi]
  exact hx

/-- What the rest of an item derives can stand at its dot, with what stands behind. -/
theorem Automaton.Ahead.of_derives {g : Grammar} {a : Automaton} {item : Item}
    {u v : List SymbolId} (h : g.Derives (item.rest g) u) (hu : ∀ t ∈ u, g.isTerminal t = true)
    (hbehind : Behind g a (item.left g) v) : Ahead g a item (u ++ v) := by
  obtain ⟨f, hvalid, hroots, rfl⟩ := Forest.exists_of_derives h
  exact ⟨f, v, hvalid, hroots, hu, hbehind, rfl⟩

namespace Tables

open Grammar (exists_terminals_of_productive)

/-- Reductions are never taken back. -/
theorem Reaches.length_reduced_le {t : Tables} {c d : Configuration} (h : t.Reaches c d) :
    c.reduced.length ≤ d.reduced.length := by
  induction h with
  | refl => exact Nat.le_refl _
  | tail _ hstep ih =>
    obtain ⟨_, _, _, hcases⟩ := step?_eq_some hstep
    rcases hcases with ⟨_, _, rfl⟩ | ⟨_, _, _, _, _, _, _, _, _, rfl⟩
    · exact ih
    · exact Nat.le_succ_of_le ih

/-- On the way to accepting, no more reductions are made than are made in the end. -/
theorem Accepts.length_le {t : Tables} {input : List String} {reduced : List Nat}
    (h : t.Accepts input reduced) {c : Configuration} (hc : t.Reaches (start input) c) :
    c.reduced.length ≤ reduced.length := by
  obtain ⟨d, hd, haccept, rfl⟩ := h
  rcases Reaches.total hc hd with hcd | hdc
  · exact Reaches.length_reduced_le hcd
  · rw [Reaches.eq_of_step?_none hdc (step?_of_accepts haccept)]

/-- A run that leaves some input unread makes the same steps with other input in its place,
if that decides the same wherever the run comes to. -/
theorem Reaches.lockstep {t : Tables} {xs : List String} {c d : Configuration}
    (h : t.Reaches c d) (ys : List String)
    (hsame : ∀ (state : Nat) (below : List Nat) (p : List String) (reduced : List Nat),
      t.Reaches c ⟨state :: below, p ++ xs, reduced⟩ →
        t.decide? state (p ++ xs) = t.decide? state (p ++ ys)) {p : List String}
    (hinput : d.input = p ++ xs) :
    ∃ p₀ : List String, c.input = p₀ ++ xs ∧
      t.Reaches { c with input := p₀ ++ ys } { d with input := p ++ ys } := by
  induction h generalizing p with
  | refl => exact ⟨p, hinput, .refl⟩
  | @tail d e hreach hstep ih =>
    obtain ⟨stack, input, reduced⟩ := d
    obtain ⟨state, below, hstack, hcases⟩ := step?_eq_some hstep
    have hstack : stack = state :: below := hstack
    subst hstack
    rcases hcases with ⟨next, hdecide, rfl⟩ |
      ⟨rule, left, symbols, top, more, next, hdecide, hdrop, hgoto, rfl⟩
    · -- a symbol was read, so there was one more in front of what is left
      cases input with
      | nil => cases hdecide
      | cons name rest =>
        have hrest : rest = p ++ xs := hinput
        subst hrest
        obtain ⟨p₀, hp₀, hlock⟩ := ih (p := name :: p) rfl
        refine ⟨p₀, hp₀, hlock.tail ?_⟩
        have hdecide := (hsame state below (name :: p) reduced hreach).symm.trans hdecide
        rw [step?]
        simp only [hdecide]
        rfl
    · have hrest : input = p ++ xs := hinput
      subst hrest
      obtain ⟨p₀, hp₀, hlock⟩ := ih rfl
      refine ⟨p₀, hp₀, hlock.tail ?_⟩
      have hdecide := (hsame state below p reduced hreach).symm.trans hdecide
      have hdrop : (state :: below).drop symbols.length = top :: more := hdrop
      rw [step?]
      simp only [hdecide, hdrop, hgoto, Option.map_some]

variable {g : Grammar} (wf : g.WellFormed) {a b : Automaton} {tables : Tables}
  (hc : Automaton.Canonical g a) (hsharpens : b.Sharpens a) (hreads : b.Reads g tables)

include hsharpens hreads in
/-- What to do depends on two symbols of the input. -/
theorem decide?_congr {q : Nat} {s : State} (hs : a.states[q]? = some s) {xs ys : List SymbolId}
    (hxs : ∀ y ∈ xs, y.index < g.symbols.length) (hys : ∀ y ∈ ys, y.index < g.symbols.length)
    (h : xs.take 2 = ys.take 2) :
    tables.decide? q (xs.map g.nameOf) = tables.decide? q (ys.map g.nameOf) := by
  obtain ⟨s', hs'⟩ := hsharpens.exists_state hs
  cases xs with
  | nil =>
    cases ys with
    | nil => rfl
    | cons y ys => cases h
  | cons x xs =>
    cases ys with
    | nil => cases h
    | cons y ys =>
      obtain ⟨rfl, hrest⟩ := List.cons.inj h
      obtain ⟨hx, hxs⟩ := List.forall_mem_cons.mp hxs
      obtain ⟨_, hys⟩ := List.forall_mem_cons.mp hys
      have hsize : ∀ t ∈ s'.transitions, t.lookahead.size ≤ 1 := fun t ht =>
        ((hsharpens.at hs hs').2.2 t ht).2
      refine Option.ext fun action => ?_
      rw [List.map_cons, List.map_cons, hreads.decide_iff q s' x xs action hs' hx hxs,
        hreads.decide_iff q s' x ys action hs' hx hys]
      refine exists_congr fun t => and_congr_right fun ht => and_congr_right fun _ => ?_
      refine and_congr_left fun _ => ⟨fun hadmits => ?_, fun hadmits => ?_⟩
      · exact hadmits.congr (hsize t ht) hrest
      · exact hadmits.congr (hsize t ht) hrest.symm

include wf hc hsharpens hreads in
/-- A run that leaves some of the sentence unread cannot tell it from what begins with the same
two symbols. -/
theorem reaches_of_take_two {u xs ys : List SymbolId} (hxs : ∀ t ∈ u ++ xs, t ∈ g.terminals)
    (hys : ∀ t ∈ ys, t ∈ g.terminals)
    (hsame : (xs ++ [SymbolId.endMarker]).take 2 = (ys ++ [SymbolId.endMarker]).take 2)
    {stack reduced : List Nat}
    (h : tables.Reaches (Tables.start ((u ++ (xs ++ [SymbolId.endMarker])).map g.nameOf))
      ⟨stack, (xs ++ [SymbolId.endMarker]).map g.nameOf, reduced⟩) :
    tables.Reaches (Tables.start ((u ++ ys).map g.nameOf ++ [Symbol.endName]))
      ⟨stack, (ys ++ [SymbolId.endMarker]).map g.nameOf, reduced⟩ := by
  have hlock := h.lockstep ((ys ++ [SymbolId.endMarker]).map g.nameOf)
    (fun q below p rs hreach => ?_) (p := []) rfl
  · obtain ⟨p, hp, hlock⟩ := hlock
    have hp : (u ++ (xs ++ [SymbolId.endMarker])).map g.nameOf =
        p ++ (xs ++ [SymbolId.endMarker]).map g.nameOf := hp
    rw [List.map_append] at hp
    obtain rfl := List.append_cancel_right hp
    rw [List.map_append, List.append_assoc, ← wf.nameOf_endMarker, ← List.map_singleton,
      ← List.map_append]
    exact hlock
  · -- what is read until then is made of symbols of the grammar
    rw [← List.append_assoc] at hreach
    obtain ⟨f, left, _, hstack, hinput, hread, _⟩ :=
      Consistent.of_reaches wf hc hsharpens hreads hxs hreach
    obtain ⟨s, hs⟩ := hstack.exists_state hc
    obtain ⟨front, back, rfl, rfl, _⟩ := List.map_eq_append_iff.mp hinput.symm
    have hfront : ∀ t ∈ front, t.index < g.symbols.length := fun t ht =>
      lt_of_mem_left wf hxs hread t (List.mem_append_left _ ht)
    have hbelow : ∀ zs : List SymbolId, (∀ t ∈ zs, t ∈ g.terminals) →
        ∀ t ∈ front ++ (zs ++ [SymbolId.endMarker]), t.index < g.symbols.length := by
      intro zs hzs t ht
      refine (List.mem_append.mp ht).elim (hfront t) fun ht => ?_
      exact lt_of_mem_left wf hzs (List.nil_append _) t ht
    rw [← List.map_append, ← List.map_append]
    exact decide?_congr hsharpens hreads hs
      (hbelow xs fun t ht => hxs t (List.mem_append_right _ ht)) (hbelow ys hys)
      (take_append_congr hsame front)

variable (hserves : b.Serves g a)

include wf hc hsharpens hreads hserves

/-- With an item in its top state that waits for a symbol, the parser goes down to another one
that the rules lead to: it reads and reduces what stands before that one. -/
theorem reaches_of_descent {x y : SymbolId} {front back : List SymbolId}
    (h : g.Descent x front y back) {f : Forest} (hvalid : f.Valid g) (hfront : f.roots g = front)
    (hf : ∀ t ∈ f.yield, g.isTerminal t = true) {u v more : List SymbolId}
    (hu : g.Derives [y] u) (hu_terminal : ∀ t ∈ u, g.isTerminal t = true)
    (hv : g.Derives back v) (hv_terminal : ∀ t ∈ v, g.isTerminal t = true)
    {q : Nat} {s : State} (hs : a.states[q]? = some s) {item : Item}
    (hitem : item ∈ s.itemSet.items) (hx : item.next? g = some x) (hbehind : a.Behind g x more)
    (below rs : List Nat) :
    ∃ stack : List Nat,
      tables.Reaches ⟨q :: below, (f.yield ++ (u ++ (v ++ more))).map g.nameOf, rs⟩
        ⟨stack, (u ++ (v ++ more)).map g.nameOf, f.postorder.reverse.map Handle.index ++ rs⟩ := by
  induction h generalizing f v more q s item below rs with
  | refl x =>
    have hnil : f = .nil := by
      cases f with
      | nil => rfl
      | leaf x rest => cases hfront
      | node r children rest => cases hfront
    subst hnil
    exact ⟨q :: below, .refl⟩
  | @step r before behind front back y z hr hright hdescent ih =>
    obtain ⟨f₁, f₂, rfl, hf₁, hf₂⟩ := Forest.exists_append_of_roots hfront
    obtain ⟨hvalid₁, hvalid₂⟩ := Forest.valid_append.mp hvalid
    obtain ⟨v₁, v₂, rfl, hv₁, hv₂⟩ := hv.exists_append
    simp only [Forest.yield_append, List.mem_append] at hf hv_terminal
    have hv₁_terminal : ∀ t ∈ v₁, g.isTerminal t = true := fun t ht => hv_terminal t (Or.inl ht)
    have hv₂_terminal : ∀ t ∈ v₂, g.isTerminal t = true := fun t ht => hv_terminal t (Or.inr ht)
    -- what comes at the dot before the next symbol, and behind it
    have hfront_mem : (⟨r, 0⟩ : Item) ∈ s.itemSet.items := hc.front_mem wf hs hitem hx hr
    have hmoved : Item.rest g (Item.move ⟨r, 0⟩ before.length) = z :: behind := by
      show (g.rightOf r).drop (0 + before.length) = z :: behind
      rw [hright, Nat.zero_add, List.drop_left]
    obtain ⟨hnext, hrest⟩ := Item.next?_of_rest hmoved
    have hend : a.Ahead g (Item.move (Item.move ⟨r, 0⟩ before.length) 1) (v₂ ++ more) :=
      .of_derives (hrest ▸ hv₂) hv₂_terminal hbehind
    have hahead : a.Ahead g (Item.move ⟨r, 0⟩ before.length)
        (f₂.yield ++ (u ++ v₁) ++ v₂ ++ more) := by
      have hz : g.Derives [z] (f₂.yield ++ (u ++ v₁)) :=
        hdescent.derives.trans ((hf₂ ▸ Forest.derives hvalid₂).both (hu.both hv₁))
      refine .of_derives (hmoved ▸ hz.both hv₂) (fun t ht => ?_) hbehind
      simp only [List.mem_append] at ht
      obtain (ht | ht | ht) | ht := ht
      · exact hf t (Or.inr ht)
      · exact hu_terminal t ht
      · exact hv₁_terminal t ht
      · exact hv₂_terminal t ht
    rw [← hf₁] at hahead
    obtain ⟨q₁, above, s₁, hreach, _, hs₁, hitem₁⟩ :=
      reaches_of_forest wf hc hsharpens hreads hserves hvalid₁ (fun t ht => hf t (Or.inl ht)) hs
        hfront_mem (hf₁ ▸ hright) hahead below rs
    rw [hf₁] at hitem₁
    obtain ⟨stack, hrun⟩ := ih hvalid₂ hf₂ (fun t ht => hf t (Or.inr ht)) hu hv₁ hv₁_terminal hs₁
      hitem₁ hnext (hc.behind_of_ahead wf hs₁ hitem₁ hnext hend) above _
    refine ⟨stack, ?_⟩
    simp only [Forest.yield_append, Forest.postorder_append, List.reverse_append, List.map_append,
      List.append_assoc] at hreach hrun ⊢
    exact hreach.trans hrun

/-- From the beginning, the parser goes down to a symbol that the rules lead to. -/
theorem reaches_down {start x : SymbolId} (hstart : g.start? = some start)
    {front back : List SymbolId} (h : g.Descent start front x back) {f : Forest}
    (hvalid : f.Valid g) (hfront : f.roots g = front)
    (hf : ∀ t ∈ f.yield, g.isTerminal t = true) {u v : List SymbolId} (hu : g.Derives [x] u)
    (hu_terminal : ∀ t ∈ u, g.isTerminal t = true) (hv : g.Derives back v)
    (hv_terminal : ∀ t ∈ v, g.isTerminal t = true) :
    ∃ stack : List Nat,
      tables.Reaches (Tables.start ((f.yield ++ (u ++ (v ++ [SymbolId.endMarker]))).map g.nameOf))
        ⟨stack, (u ++ (v ++ [SymbolId.endMarker])).map g.nameOf,
          f.postorder.reverse.map Handle.index⟩ := by
  obtain ⟨s, hs, hitem, hright, hahead⟩ := hc.exists_start hstart
  have hnext : Item.next? g ⟨Handle.ofNat 0, 0⟩ = some start := by
    rw [Item.next?, hright]
    rfl
  obtain ⟨stack, hrun⟩ := reaches_of_descent wf hc hsharpens hreads hserves h hvalid hfront hf hu
    hu_terminal hv hv_terminal hs hitem hnext (hc.behind_of_ahead wf hs hitem hnext hahead) [] []
  rw [List.append_nil] at hrun
  exact ⟨stack, hrun⟩

/-- The parser does not go round a recursion with something in front that vanishes: it would
make more reductions on a sentence than it makes in the end. -/
theorem not_round : ¬ Nonempty g.Round := by
  rintro ⟨round⟩
  have hterminal : ∀ {t : SymbolId}, t ∈ g.terminals → g.isTerminal t = true := fun ht =>
    (wf.mem_terminals.mp ht).1
  -- the sentence with two rounds is accepted
  obtain ⟨tree, htree, hroots, hyield⟩ := Forest.exists_of_derives (round.derives_sentence 2)
  have haccepts := accepts_of_parses wf hc hsharpens hreads hserves
    ⟨htree, ⟨_, round.start?_eq, hroots⟩, hyield⟩ fun t ht =>
      hterminal (round.mem_terminals 2 t ht)
  generalize tree.postorder.reverse.map Handle.index = reduced at haccepts
  -- with more rounds ahead than that, the parser makes a reduction for each of them
  obtain ⟨f, behind, hvalid, hread, hcount, hdescent, hbehind⟩ :=
    round.exists_forest (reduced.length + 1 + 2)
  have hmem := fun t ht => hterminal (round.mem_terminals (reduced.length + 1 + 2) t ht)
  rw [Grammar.Round.sentence, Grammar.Round.ahead, ← hread] at hmem
  obtain ⟨stack, hreach⟩ := reaches_down wf hc hsharpens hreads hserves round.start?_eq hdescent
    hvalid rfl (fun t ht => hmem t (List.mem_append_left _ ht)) round.derives_symbol
    (fun t ht => hmem t (List.mem_append_right _ (List.mem_append_left _ ht))) hbehind
    (fun t ht => hmem t (List.mem_append_right _ (List.mem_append_right _ ht)))
  rw [hread, ← List.append_assoc round.inside, ← Grammar.Round.ahead] at hreach
  -- and it cannot tell these from two
  have hsame := reaches_of_take_two wf hc hsharpens hreads
    (round.mem_terminals (reduced.length + 1 + 2)) (fun t ht =>
      round.mem_terminals 2 t (List.mem_append_right _ ht)) (round.take_two_ahead _) hreach
  have hle := haccepts.length_le hsame
  rw [List.length_map, List.length_reverse] at hle
  omega

/-- Trees of one symbol with one yield have as many nodes as each other, since the parser makes
as many reductions for the sentence they stand in. -/
theorem length_postorder_eq {start x : SymbolId} (hstart : g.start? = some start)
    {above below u v : List SymbolId} (h : g.Descent start above x below)
    (hu : g.Derives above u) (hv : g.Derives below v) {t t' : Forest} (ht : t.Valid g)
    (ht' : t'.Valid g) (hroots : t.roots g = [x]) (hroots' : t'.roots g = [x])
    (hyield : t.yield = t'.yield) (hterminal : ∀ y ∈ u ++ (t.yield ++ v), g.isTerminal y = true) :
    t.postorder.length = t'.postorder.length := by
  obtain ⟨f, hf, hfront, rfl⟩ := Forest.exists_of_derives hu
  obtain ⟨f', hf', hback, rfl⟩ := Forest.exists_of_derives hv
  obtain ⟨nodes, hnodes⟩ := h.exists_tree hf hfront hf' hback
  obtain ⟨tree, htree, hroot, htree_yield, hcount⟩ := hnodes t ht hroots
  obtain ⟨tree', htree', hroot', htree_yield', hcount'⟩ := hnodes t' ht' hroots'
  rw [← hyield] at htree_yield'
  have haccept := accepts_of_parses wf hc hsharpens hreads hserves
    ⟨htree, ⟨start, hstart, hroot⟩, htree_yield⟩ hterminal
  have haccept' := accepts_of_parses wf hc hsharpens hreads hserves
    ⟨htree', ⟨start, hstart, hroot'⟩, htree_yield'⟩ hterminal
  have hsame := congrArg List.length (haccept.reduced_unique haccept')
  simp only [List.length_map, List.length_reverse] at hsame
  omega

/-- If all symbols of sentential forms derive input, none of them loops. -/
theorem not_loops (hproductive : ∀ x, g.Reachable x → g.Productive x) {x : SymbolId}
    (hx : g.Reachable x) : ¬ g.Loops x := by
  intro hloops
  obtain ⟨start, above, below, hstart, hdescent⟩ := hx.exists_descent
  have hreachable : g.Reachable start := ⟨start, [], [], hstart, .refl⟩
  have habove : ∀ y ∈ above, g.Productive y := fun y hy =>
    hproductive y (hreachable.of_derives hdescent.derives (List.mem_append_left _ hy))
  have hbelow : ∀ y ∈ below, g.Productive y := fun y hy =>
    hproductive y (hreachable.of_derives hdescent.derives
      (List.mem_append_right _ (List.mem_cons_of_mem x hy)))
  obtain ⟨read, hread, habove⟩ := exists_terminals_of_productive habove
  obtain ⟨inside, hinside, hsymbol⟩ := hproductive x hx
  obtain ⟨rest, hrest, hbelow⟩ := exists_terminals_of_productive hbelow
  rcases hloops.rounds_or_larger wf with ⟨front, back, hagain, hvanish, hne⟩ | hlarger
  · have hback : ∀ y ∈ back, g.Productive y := fun y hy =>
      hproductive y (hx.of_derives hagain.derives
        (List.mem_append_right _ (List.mem_cons_of_mem x hy)))
    obtain ⟨behind, hbehind, hback⟩ := exists_terminals_of_productive hback
    have hterminals : ∀ t ∈ read ++ (inside ++ (behind ++ rest)), t ∈ g.terminals := by
      intro t ht
      simp only [List.mem_append] at ht
      exact ht.elim (hread t) fun ht => ht.elim (hinside t) fun ht => ht.elim (hbehind t) (hrest t)
    exact not_round wf hc hsharpens hreads hserves ⟨⟨start, x, above, below, front, back, read,
      inside, behind, rest, hstart, hdescent, hagain, hvanish, hne, habove, hsymbol, hback, hbelow,
      hterminals⟩⟩
  · obtain ⟨t, ht, hroots, hyield⟩ := Forest.exists_of_derives hsymbol
    obtain ⟨t', ht', hroots', hyield', hlarger⟩ := hlarger t ht hroots
    have hsame := length_postorder_eq wf hc hsharpens hreads hserves hstart hdescent habove hbelow
      ht ht' hroots hroots' hyield'.symm fun y hy => ?_
    · omega
    · rw [hyield] at hy
      simp only [List.mem_append] at hy
      exact (wf.mem_terminals.mp (hy.elim (hread y) fun hy => hy.elim (hinside y) (hrest y))).1

end Tables
end ShiftReduce
