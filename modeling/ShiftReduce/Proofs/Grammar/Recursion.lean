/-
Recursion.

A nonterminal unfolds to a symbol if one of its rules, and whatever derivation, puts that
symbol in its place, with something in front of it and something behind it.  It loops if it
unfolds to itself and a parser can go round that recursion without reading anything: what is
in front vanishes, and either what is behind vanishes too, or there is something in front
that has to be reduced before the nonterminal can begin.

A derivation says what comes out and not where it comes from.  `Descent` follows one symbol
through the rules, each with the next symbol in its right side, so what is in front and
behind is put together from parts of right sides; `Forest.exists_descent` finds it in a
parse forest.  So there are two ways to loop, `Loops.rounds_or_larger`: with nodes in front,
one for each round, or with trees that can be made larger and keep their yields.
-/
import ShiftReduce.Proofs.Automaton.Sentential

namespace ShiftReduce
namespace Grammar

/-- One of the rules of a symbol, and a derivation, replace it by another symbol with these
in front and behind. -/
def Unfolds (g : Grammar) (x : SymbolId) (front : List SymbolId) (y : SymbolId)
    (back : List SymbolId) : Prop :=
  ∃ r : RuleId, r.index < g.rules.length ∧ g.leftOf r = x ∧
    g.Derives (g.rightOf r) (front ++ y :: back)

/-- The symbol unfolds to itself with nothing to be read in front of it, and either nothing
behind it or something in front of it. -/
def Loops (g : Grammar) (x : SymbolId) : Prop :=
  ∃ front back : List SymbolId, g.Unfolds x front x back ∧ g.Derives front [] ∧
    (front ≠ [] ∨ g.Derives back [])

/-- The symbol is in a sentential form. -/
def Reachable (g : Grammar) (x : SymbolId) : Prop :=
  ∃ (start : SymbolId) (front back : List SymbolId), g.start? = some start ∧
    g.Derives [start] (front ++ x :: back)

/-- The symbol derives a sequence of input symbols. -/
def Productive (g : Grammar) (x : SymbolId) : Prop :=
  ∃ v : List SymbolId, (∀ t ∈ v, t ∈ g.terminals) ∧ g.Derives [x] v

variable {g : Grammar} {x y z : SymbolId} {front back : List SymbolId}

theorem Unfolds.of_split {r : RuleId} (hr : r.index < g.rules.length)
    (hright : g.rightOf r = front ++ y :: back) : g.Unfolds (g.leftOf r) front y back :=
  ⟨r, hr, rfl, hright ▸ .refl⟩

theorem Unfolds.derives (h : g.Unfolds x front y back) : g.Derives [x] (front ++ y :: back) := by
  obtain ⟨r, hr, rfl, hderives⟩ := h
  exact (derives_rightOf hr).trans hderives

theorem Unfolds.trans {front' back' : List SymbolId} (h : g.Unfolds x front y back)
    (h' : g.Unfolds y front' z back') : g.Unfolds x (front ++ front') z (back' ++ back) := by
  obtain ⟨r, hr, hleft, hderives⟩ := h
  refine ⟨r, hr, hleft, ?_⟩
  have hinside := h'.derives.append front back
  simp only [List.append_assoc, List.cons_append, List.nil_append] at hinside ⊢
  exact hderives.trans hinside

/-- What a symbol in a sentential form derives is in sentential forms as well. -/
theorem Reachable.of_derives (h : g.Reachable x) {ys : List SymbolId} (hderives : g.Derives [x] ys)
    (hy : y ∈ ys) : g.Reachable y := by
  obtain ⟨start, front, back, hstart, hx⟩ := h
  obtain ⟨before, behind, rfl⟩ := List.append_of_mem hy
  refine ⟨start, front ++ before, behind ++ back, hstart, ?_⟩
  have hinside := hderives.append front back
  simp only [List.append_assoc, List.cons_append, List.nil_append] at hinside ⊢
  exact hx.trans hinside

theorem Reachable.of_rightOf {r : RuleId} (hr : r.index < g.rules.length)
    (h : g.Reachable (g.leftOf r)) (hy : y ∈ g.rightOf r) : g.Reachable y :=
  h.of_derives (derives_rightOf hr) hy

/-- What stands in a rule that a chain leads to is in a sentential form. -/
theorem Chain.reachable (wf : g.WellFormed) {context : List SymbolId} {r : RuleId}
    (h : g.Chain context r) (hy : y ∈ context ++ g.rightOf r) : g.Reachable y := by
  obtain ⟨start, rest, hstart, hderives⟩ := h.derives wf
  obtain ⟨before, behind, hsplit⟩ := List.append_of_mem hy
  refine ⟨start, before, behind ++ rest, hstart, ?_⟩
  rw [hsplit, List.append_assoc] at hderives
  exact hderives

/-- What holds of the start symbol and passes into right sides holds of what is in sentential
forms. -/
theorem Reachable.induction {P : SymbolId → Prop} (h : g.Reachable x)
    (hstart : ∀ start, g.start? = some start → P start)
    (hrule : ∀ r : RuleId, r.index < g.rules.length → P (g.leftOf r) → ∀ y ∈ g.rightOf r, P y) :
    P x := by
  obtain ⟨start, front, back, hs, hderives⟩ := h
  suffices hall : ∀ ys, g.Derives [start] ys → ∀ y ∈ ys, P y from
    hall _ hderives x (List.mem_append_right front List.mem_cons_self)
  intro ys hys
  induction hys with
  | refl => exact List.forall_mem_singleton.mpr (hstart start hs)
  | tail _ hstep ih =>
    cases hstep with
    | @replace r before behind hr =>
      have hleft := ih (g.leftOf r) (List.mem_append_right before List.mem_cons_self)
      intro y hy
      rw [List.append_assoc] at hy
      rcases List.mem_append.mp hy with hy | hy
      · exact ih y (List.mem_append_left _ hy)
      · rcases List.mem_append.mp hy with hy | hy
        · exact hrule r hr hleft y hy
        · exact ih y (List.mem_append_right _ (List.mem_cons_of_mem _ hy))

theorem exists_terminals_of_productive {xs : List SymbolId} (h : ∀ x ∈ xs, g.Productive x) :
    ∃ v : List SymbolId, (∀ t ∈ v, t ∈ g.terminals) ∧ g.Derives xs v := by
  induction xs with
  | nil => exact ⟨[], fun t ht => absurd ht List.not_mem_nil, .refl⟩
  | cons x rest ih =>
    obtain ⟨hx, hrest⟩ := List.forall_mem_cons.mp h
    obtain ⟨v, hv, hderives⟩ := hx
    obtain ⟨v', hv', hderives'⟩ := ih hrest
    refine ⟨v ++ v', fun t ht => ?_, hderives.both hderives'⟩
    exact (List.mem_append.mp ht).elim (hv t) (hv' t)

/-- The symbol is an input symbol, or one of its rules has input symbols only. -/
def Shallow (g : Grammar) (x : SymbolId) : Prop :=
  x ∈ g.terminals ∨ ∃ r ∈ g.rulesFor x, ∀ y ∈ g.rightOf r, y ∈ g.terminals

instance decidableShallow (g : Grammar) (x : SymbolId) : Decidable (g.Shallow x) :=
  inferInstanceAs (Decidable
    (x ∈ g.terminals ∨ ∃ r ∈ g.rulesFor x, ∀ y ∈ g.rightOf r, y ∈ g.terminals))

theorem Shallow.productive (wf : g.WellFormed) (h : g.Shallow x) : g.Productive x := by
  rcases h with hx | ⟨r, hr, hright⟩
  · exact ⟨[x], List.forall_mem_singleton.mpr hx, .refl⟩
  · obtain ⟨hlt, rfl⟩ := wf.mem_rulesFor.mp hr
    exact ⟨g.rightOf r, hright, derives_rightOf hlt⟩

theorem Reachable.productive (wf : g.WellFormed) (hstart : g.start?.all fun x => g.Shallow x)
    (hright : ∀ rule ∈ g.rules, ∀ y ∈ rule.right, g.Shallow y) (h : g.Reachable x) :
    g.Productive x := by
  refine Shallow.productive wf (h.induction (fun start hs => ?_) fun r hr _ y hy => ?_)
  · rw [hs] at hstart
    exact of_decide_eq_true hstart
  · obtain ⟨rule, hmem, hrule⟩ := exists_rule?_of_lt hr
    rw [rightOf_of_rule? hrule] at hy
    exact hright rule hmem y hy

theorem eq_nil_of_derives (wf : g.WellFormed) {ys : List SymbolId} (h : g.Derives [] ys) :
    ys = [] :=
  h.eq_of_terminals wf fun _ hx => absurd hx List.not_mem_nil

/-! ## Following one symbol through the rules -/

/-- Rules lead from one symbol to another, each with the next symbol in its right side, and
this is what stands before and behind these symbols. -/
inductive Descent (g : Grammar) : SymbolId → List SymbolId → SymbolId → List SymbolId → Prop
  | refl (x : SymbolId) : Descent g x [] x []
  | step {r : RuleId} {before behind front back : List SymbolId} {y z : SymbolId} :
      r.index < g.rules.length → g.rightOf r = before ++ z :: behind →
        Descent g z front y back → Descent g (g.leftOf r) (before ++ front) y (back ++ behind)

theorem Descent.derives (h : g.Descent x front y back) : g.Derives [x] (front ++ y :: back) := by
  induction h with
  | refl x => exact .refl
  | @step r before behind front back y z hr hright _ ih =>
    have hinside := ih.append before behind
    refine (derives_rightOf hr).trans ?_
    rw [hright]
    simp only [List.append_assoc, List.cons_append, List.nil_append] at hinside ⊢
    exact hinside

end Grammar

theorem Forest.yield_of_roots_nil {g : Grammar} {f : Forest} (h : f.roots g = []) :
    f.yield = [] := by
  cases f with
  | nil => rfl
  | leaf x rest => cases h
  | node r children rest => cases h

/-- What vanishes does so by rules. -/
theorem Forest.length_postorder_pos {g : Grammar} {f : Forest} (h : f.yield = [])
    (hroots : f.roots g ≠ []) : 0 < f.postorder.length := by
  cases f with
  | nil => exact absurd rfl hroots
  | leaf x rest => cases h
  | node r children rest =>
    rw [postorder, List.length_append, List.length_cons]
    omega

/-- A leaf of a forest hangs below one of the roots. -/
theorem Forest.exists_descent {g : Grammar} {f : Forest} (hvalid : f.Valid g) {y : SymbolId}
    {front back : List SymbolId} (hyield : f.yield = front ++ y :: back) :
    ∃ (before behind above below : List SymbolId) (x : SymbolId),
      f.roots g = before ++ x :: behind ∧ g.Descent x above y below ∧
        g.Derives (before ++ above) front ∧ g.Derives (below ++ behind) back := by
  induction f generalizing front back with
  | nil => exact absurd hyield.symm (List.append_ne_nil_of_right_ne_nil _ (List.cons_ne_nil _ _))
  | leaf x rest ih =>
    cases front with
    | nil =>
      obtain ⟨rfl, rfl⟩ := List.cons.inj hyield
      exact ⟨[], rest.roots g, [], [], x, rfl, .refl x, .refl, Forest.derives hvalid⟩
    | cons x' front =>
      obtain ⟨rfl, hleaf⟩ := List.cons.inj hyield
      obtain ⟨before, behind, above, below, root, hroots, hdescent, hfront, hback⟩ :=
        ih hvalid hleaf
      have hx : g.Derives [x] [x] := .refl
      exact ⟨x :: before, behind, above, below, root, congrArg (x :: ·) hroots, hdescent,
        hx.both hfront, hback⟩
  | node r children rest ihc ihr =>
    obtain ⟨hr, hchildren_roots, hchildren, hrest⟩ := hvalid
    have hnode : g.Derives [g.leftOf r] children.yield :=
      (Grammar.derives_rightOf hr).trans (hchildren_roots ▸ Forest.derives hchildren)
    rcases append_eq_append_cons hyield with ⟨more, hleaf, rfl⟩ | ⟨more, rfl, hleaf⟩
    · -- the leaf hangs below this node
      obtain ⟨before, behind, above, below, root, hroots, hdescent, hfront, hback⟩ :=
        ihc hchildren hleaf
      refine ⟨[], rest.roots g, before ++ above, below ++ behind, g.leftOf r, rfl, ?_, hfront,
        hback.both (Forest.derives hrest)⟩
      exact .step hr (hchildren_roots.symm.trans hroots) hdescent
    · obtain ⟨before, behind, above, below, root, hroots, hdescent, hfront, hback⟩ :=
        ihr hrest hleaf
      exact ⟨g.leftOf r :: before, behind, above, below, root, congrArg (g.leftOf r :: ·) hroots,
        hdescent, hnode.both hfront, hback⟩

namespace Grammar

variable {g : Grammar} {x y z : SymbolId} {front back : List SymbolId}

/-- From the start symbol, a symbol of a sentential form is reached through rules. -/
theorem Reachable.exists_descent (h : g.Reachable x) :
    ∃ (start : SymbolId) (front back : List SymbolId), g.start? = some start ∧
      g.Descent start front x back := by
  obtain ⟨start, front, back, hstart, hderives⟩ := h
  obtain ⟨f, hvalid, hroots, hyield⟩ := Forest.exists_of_derives hderives
  obtain ⟨before, behind, above, below, root, hroots', hdescent, _, _⟩ :=
    Forest.exists_descent hvalid hyield
  rw [hroots] at hroots'
  cases before with
  | nil =>
    obtain ⟨rfl, _⟩ := List.cons.inj hroots'
    exact ⟨start, above, below, hstart, hdescent⟩
  | cons y before =>
    have hnil := (List.cons.inj hroots').2
    exact absurd hnil.symm (List.append_ne_nil_of_right_ne_nil _ (List.cons_ne_nil _ _))

/-! ## Going round -/

theorem Descent.trans {front' back' : List SymbolId} (h : g.Descent x front y back)
    (h' : g.Descent y front' z back') : g.Descent x (front ++ front') z (back' ++ back) := by
  induction h with
  | refl x =>
    rw [List.nil_append, List.append_nil]
    exact h'
  | step hr hright _ ih =>
    rw [List.append_assoc, ← List.append_assoc back']
    exact .step hr hright (ih h')

/-- A tree becomes a child of a node, between what is put before and behind it. -/
theorem exists_node {r : RuleId} {before behind : List SymbolId} (hr : r.index < g.rules.length)
    (hright : g.rightOf r = before ++ z :: behind) {f f' t : Forest} (hf : f.Valid g)
    (hbefore : f.roots g = before) (hf' : f'.Valid g) (hbehind : f'.roots g = behind)
    (ht : t.Valid g) (hroots : t.roots g = [z]) :
    ∃ tree : Forest, tree.Valid g ∧ tree.roots g = [g.leftOf r] ∧
      tree.yield = f.yield ++ (t.yield ++ f'.yield) ∧
        tree.postorder.length =
          f.postorder.length + f'.postorder.length + 1 + t.postorder.length := by
  refine ⟨.node r (f.append (t.append f')) .nil, ⟨hr, ?_, ?_, trivial⟩, rfl, ?_, ?_⟩
  · rw [Forest.roots_append, Forest.roots_append, hbefore, hroots, hbehind, hright]
    rfl
  · exact Forest.valid_append.mpr ⟨hf, Forest.valid_append.mpr ⟨ht, hf'⟩⟩
  · simp only [Forest.yield, Forest.yield_append, List.append_nil]
  · simp only [Forest.postorder, Forest.postorder_append, List.length_append, List.length_cons,
      List.length_nil]
    omega

/-- What is put in the place of the symbol that was followed becomes part of a tree, which
has always the same nodes besides. -/
theorem Descent.exists_tree (h : g.Descent x front y back) {f f' : Forest} (hf : f.Valid g)
    (hfront : f.roots g = front) (hf' : f'.Valid g) (hback : f'.roots g = back) :
    ∃ nodes : Nat, ∀ t : Forest, t.Valid g → t.roots g = [y] → ∃ tree : Forest, tree.Valid g ∧
      tree.roots g = [x] ∧ tree.yield = f.yield ++ (t.yield ++ f'.yield) ∧
        tree.postorder.length = nodes + t.postorder.length := by
  induction h generalizing f f' with
  | refl x =>
    refine ⟨0, fun t ht hroots => ⟨t, ht, hroots, ?_, (Nat.zero_add _).symm⟩⟩
    rw [Forest.yield_of_roots_nil hfront, Forest.yield_of_roots_nil hback, List.append_nil]
    rfl
  | @step r before behind front back y z hr hright _ ih =>
    obtain ⟨f₁, f₂, rfl, hf₁, hf₂⟩ := Forest.exists_append_of_roots hfront
    obtain ⟨f₁', f₂', rfl, hf₁', hf₂'⟩ := Forest.exists_append_of_roots hback
    obtain ⟨hvalid₁, hvalid₂⟩ := Forest.valid_append.mp hf
    obtain ⟨hvalid₁', hvalid₂'⟩ := Forest.valid_append.mp hf'
    obtain ⟨nodes, hnodes⟩ := ih hvalid₂ hf₂ hvalid₁' hf₁'
    refine ⟨f₁.postorder.length + f₂'.postorder.length + 1 + nodes, fun t ht hroots => ?_⟩
    obtain ⟨below, hbelow, hroot, hyield, hcount⟩ := hnodes t ht hroots
    obtain ⟨tree, htree, hroot', hyield', hcount'⟩ :=
      exists_node hr hright hvalid₁ hf₁ hvalid₂' hf₂' hbelow hroot
    refine ⟨tree, htree, hroot', ?_, by omega⟩
    simp only [hyield', hyield, Forest.yield_append, List.append_assoc]

/-- Going round so often has a node for each round in front, if all in front vanishes. -/
theorem Descent.exists_rounds {v : List SymbolId} (h : g.Descent x front x back)
    (hfront : g.Derives front []) (hne : front ≠ []) (hback : g.Derives back v) (rounds : Nat) :
    ∃ (f : Forest) (back' : List SymbolId), f.Valid g ∧ f.yield = [] ∧
      rounds ≤ f.postorder.length ∧ g.Descent x (f.roots g) x back' ∧
        g.Derives back' (List.replicate rounds v).flatten := by
  obtain ⟨f₀, hvalid₀, hroots₀, hyield₀⟩ := Forest.exists_of_derives hfront
  have hnode : 0 < f₀.postorder.length := by
    refine Forest.length_postorder_pos (g := g) hyield₀ fun hnil => hne ?_
    exact hroots₀.symm.trans hnil
  induction rounds with
  | zero => exact ⟨.nil, [], trivial, rfl, Nat.le_refl 0, .refl x, .refl⟩
  | succ rounds ih =>
    obtain ⟨f, back', hvalid, hyield, hcount, hdescent, hderives⟩ := ih
    refine ⟨f.append f₀, back ++ back', Forest.valid_append.mpr ⟨hvalid, hvalid₀⟩, ?_, ?_, ?_, ?_⟩
    · rw [Forest.yield_append, hyield, hyield₀]
      rfl
    · rw [Forest.postorder_append, List.length_append]
      omega
    · rw [Forest.roots_append, hroots₀]
      exact hdescent.trans h
    · rw [List.replicate_succ, List.flatten_cons]
      exact hback.both hderives

/-- What loops can go round with something in front that vanishes, or its trees can be made
larger without a change of their yields. -/
theorem Loops.rounds_or_larger (wf : g.WellFormed) (h : g.Loops x) :
    (∃ front back : List SymbolId, g.Descent x front x back ∧ g.Derives front [] ∧ front ≠ []) ∨
      ∀ t : Forest, t.Valid g → t.roots g = [x] → ∃ larger : Forest, larger.Valid g ∧
        larger.roots g = [x] ∧ larger.yield = t.yield ∧
          t.postorder.length < larger.postorder.length := by
  obtain ⟨front, back, ⟨r, hr, rfl, hderives⟩, hvanish, hcases⟩ := h
  obtain ⟨f, hvalid, hroots, hyield⟩ := Forest.exists_of_derives hderives
  obtain ⟨before, behind, above, below, z, hroots', hdescent, hfront, hback⟩ :=
    Forest.exists_descent hvalid hyield
  have hright : g.rightOf r = before ++ z :: behind := hroots.symm.trans hroots'
  by_cases hne : before ++ above = []
  · refine Or.inr fun t ht hroot => ?_
    obtain ⟨rfl, rfl⟩ := List.append_eq_nil_iff.mp hne
    have hnil : front = [] := eq_nil_of_derives wf hfront
    have hback : g.Derives (below ++ behind) [] :=
      hback.trans (hcases.resolve_left fun hfront => hfront hnil)
    obtain ⟨f', hvalid', hroots', hyield'⟩ := Forest.exists_of_derives hback
    obtain ⟨f₁, f₂, rfl, hf₁, hf₂⟩ := Forest.exists_append_of_roots hroots'
    obtain ⟨hvalid₁, hvalid₂⟩ := Forest.valid_append.mp hvalid'
    rw [Forest.yield_append] at hyield'
    obtain ⟨hyield₁, hyield₂⟩ := List.append_eq_nil_iff.mp hyield'
    obtain ⟨nodes, hnodes⟩ := hdescent.exists_tree (f := .nil) trivial rfl hvalid₁ hf₁
    obtain ⟨inner, hinner, hz, hsame, hcount⟩ := hnodes t ht hroot
    obtain ⟨tree, htree, hroot', hsame', hcount'⟩ :=
      exists_node (f := .nil) hr hright trivial rfl hvalid₂ hf₂ hinner hz
    refine ⟨tree, htree, hroot', ?_, by omega⟩
    rw [hsame', hsame, hyield₁, hyield₂, List.append_nil, List.append_nil]
    rfl
  · exact Or.inl ⟨_, _, .step hr hright hdescent, hfront.trans hvanish, hne⟩

/-- A recursion that sentences go round, with all that stands around it: something in front
that vanishes, and what is derived behind, above and below. -/
structure Round (g : Grammar) where
  start : SymbolId
  symbol : SymbolId
  above : List SymbolId
  below : List SymbolId
  front : List SymbolId
  back : List SymbolId
  /-- What is derived before the recursion, in it, behind each round and at the end. -/
  read : List SymbolId
  inside : List SymbolId
  behind : List SymbolId
  rest : List SymbolId
  start?_eq : g.start? = some start
  descent : g.Descent start above symbol below
  again : g.Descent symbol front symbol back
  vanishes : g.Derives front []
  front_ne_nil : front ≠ []
  derives_above : g.Derives above read
  derives_symbol : g.Derives [symbol] inside
  derives_back : g.Derives back behind
  derives_below : g.Derives below rest
  terminals : ∀ t ∈ read ++ (inside ++ (behind ++ rest)), t ∈ g.terminals

namespace Round

variable {g : Grammar} (round : g.Round)

/-- What is ahead in the sentence with so many rounds when the recursion has been reached. -/
def ahead (n : Nat) : List SymbolId :=
  round.inside ++ ((List.replicate n round.behind).flatten ++ round.rest)

/-- The sentence with so many rounds. -/
def sentence (n : Nat) : List SymbolId := round.read ++ round.ahead n

theorem mem_terminals (n : Nat) : ∀ t ∈ round.sentence n, t ∈ g.terminals := by
  intro t ht
  refine round.terminals t ?_
  simp only [sentence, ahead, List.mem_append, List.mem_flatten, List.mem_replicate] at ht ⊢
  obtain ht | ht | ⟨v, ⟨_, rfl⟩, ht⟩ | ht := ht
  · exact Or.inl ht
  · exact Or.inr (Or.inl ht)
  · exact Or.inr (Or.inr (Or.inl ht))
  · exact Or.inr (Or.inr (Or.inr ht))

/-- A row for the way down and so many rounds, with a node for each round. -/
theorem exists_forest (n : Nat) : ∃ (f : Forest) (back : List SymbolId), f.Valid g ∧
    f.yield = round.read ∧ n ≤ f.postorder.length ∧
      g.Descent round.start (f.roots g) round.symbol back ∧
        g.Derives back ((List.replicate n round.behind).flatten ++ round.rest) := by
  obtain ⟨f, hvalid, hroots, hyield⟩ := Forest.exists_of_derives round.derives_above
  obtain ⟨f', back, hvalid', hyield', hcount, hdescent, hback⟩ :=
    round.again.exists_rounds round.vanishes round.front_ne_nil round.derives_back n
  refine ⟨f.append f', back ++ round.below, Forest.valid_append.mpr ⟨hvalid, hvalid'⟩, ?_, ?_, ?_,
    hback.both round.derives_below⟩
  · rw [Forest.yield_append, hyield, hyield', List.append_nil]
  · rw [Forest.postorder_append, List.length_append]
    exact Nat.le_trans hcount (Nat.le_add_left _ _)
  · rw [Forest.roots_append, hroots]
    exact round.descent.trans hdescent

theorem derives_sentence (n : Nat) : g.Derives [round.start] (round.sentence n) := by
  obtain ⟨f, back, hvalid, hyield, _, hdescent, hback⟩ := round.exists_forest n
  have hfront := Forest.derives hvalid
  rw [hyield] at hfront
  exact hdescent.derives.trans (hfront.both (round.derives_symbol.both hback))

end Round
end Grammar
end ShiftReduce
