/-
The passes of a refinement as what becomes of a list of transitions.

A pass reads and writes the transitions of a state through positions, and each of these may be refused.
Here every pass stands once more on the list alone: transitions are dropped by filtering, and a pair
whose positions are past the end is passed over.  The equations `prune_eq`, `lookAhead_eq`, `settle_eq`,
`bury_eq` and `compact_eq` say that a pass is what becomes of the list, refused questions included.  So
no access of a pass is ever refused: positions are gathered from the list as it is, replacing keeps its
length, and a removal comes after those of all later positions.

An automaton is worked on one state after the other, and `reworkStates_eq` is the same for its list of
states.
-/
import ShiftReduce.Refinement
import ShiftReduce.Proofs.Outcome

namespace ShiftReduce

/-- The members of a list that pass a test which may itself fail.  The test is put to the last
member first. -/
def retain {α ε : Type} (p : α → Except ε Bool) : List α → Except ε (List α)
  | [] => .ok []
  | x :: rest => do
      let kept ← retain p rest
      if ← p x then return x :: kept else return kept

/-- Where the test cannot fail, retaining is filtering. -/
theorem retain_eq_filter {α ε : Type} {p : α → Except ε Bool} {q : α → Bool} {xs : List α}
    (h : ∀ x, x ∈ xs → p x = .ok (q x)) : retain p xs = .ok (xs.filter q) := by
  induction xs with
  | nil => rfl
  | cons x rest ih =>
    have hrest : retain p rest = .ok (rest.filter q) :=
      ih fun y hy => h y (List.mem_cons_of_mem x hy)
    rw [retain, h x List.mem_cons_self, hrest, List.filter_cons]
    cases q x <;> rfl

/-! ## Positions -/

theorem getElem?_between {α : Type} (front back : List α) (x : α) :
    (front ++ x :: back)[front.length]? = some x := by
  rw [List.getElem?_append_right (Nat.le_refl _), Nat.sub_self]
  rfl

theorem mem_of_mem_orderedPairs {α : Type} {xs : List α} {x y : α}
    (h : (x, y) ∈ orderedPairs xs) : x ∈ xs ∧ y ∈ xs := by
  induction xs with
  | nil => exact absurd h List.not_mem_nil
  | cons z rest ih =>
    rw [orderedPairs] at h
    rcases List.mem_append.mp h with h | h
    · obtain ⟨y', hy, e⟩ := List.mem_map.mp h
      cases e
      exact ⟨List.mem_cons_self, List.mem_cons_of_mem _ hy⟩
    · obtain ⟨hx, hy⟩ := ih h
      exact ⟨List.mem_cons_of_mem z hx, List.mem_cons_of_mem z hy⟩

theorem mem_positionsWhere {p : Transition → Bool} {ts : List Transition} {i : Nat} :
    i ∈ positionsWhere p ts ↔ ∃ t, ts[i]? = some t ∧ p t = true := by
  rw [positionsWhere, List.mem_map]
  constructor
  · rintro ⟨⟨t, j⟩, hmem, rfl⟩
    obtain ⟨hmem, hp⟩ := List.mem_filter.mp hmem
    exact ⟨t, List.mem_zipIdx_iff_getElem?.mp hmem, hp⟩
  · rintro ⟨t, ht, hp⟩
    exact ⟨(t, i), List.mem_filter.mpr ⟨List.mem_zipIdx_iff_getElem?.mpr ht, hp⟩, rfl⟩

theorem mem_positionsOf {kind : MoveKind} {ts : List Transition} {i : Nat} :
    i ∈ positionsOf kind ts ↔ ∃ t, ts[i]? = some t ∧ t.kind = kind := by
  simp only [positionsOf, mem_positionsWhere, beq_iff_eq]

theorem lt_of_mem_positionsOf {kind : MoveKind} {ts : List Transition} {i : Nat}
    (h : i ∈ positionsOf kind ts) : i < ts.length := by
  obtain ⟨t, ht, _⟩ := mem_positionsOf.mp h
  exact (List.getElem?_eq_some_iff.mp ht).1

theorem lt_of_mem_settlingOrder {pair : Nat × Nat} {ts : List Transition}
    (h : pair ∈ Refinement.settlingOrder ts) : pair.1 < ts.length ∧ pair.2 < ts.length := by
  have hlt : ∀ i ∈ positionsOf .reduce ts ++ positionsOf .shift ts, i < ts.length := fun i hi =>
    (List.mem_append.mp hi).elim lt_of_mem_positionsOf lt_of_mem_positionsOf
  obtain ⟨hi, hj⟩ := mem_of_mem_orderedPairs h
  exact ⟨hlt _ hi, hlt _ hj⟩

theorem mem_addPosition {i j : Nat} {positions : List Nat} :
    j ∈ addPosition i positions ↔ j = i ∨ j ∈ positions := by
  induction positions with
  | nil => exact List.mem_cons
  | cons k rest ih =>
    rw [addPosition]
    split
    · exact List.mem_cons
    · split
      · rename_i hik
        rw [hik, List.mem_cons, ← or_assoc, or_self]
      · rw [List.mem_cons, ih, List.mem_cons, or_left_comm]

theorem pairwise_addPosition (i : Nat) {positions : List Nat} (h : positions.Pairwise (· < ·)) :
    (addPosition i positions).Pairwise (· < ·) := by
  induction positions with
  | nil => exact List.pairwise_singleton _ i
  | cons k rest ih =>
    obtain ⟨hk, hrest⟩ := List.pairwise_cons.mp h
    rw [addPosition]
    split
    · rename_i hik
      refine List.pairwise_cons.mpr ⟨fun j hj => ?_, h⟩
      rcases List.mem_cons.mp hj with rfl | hj
      · exact hik
      · exact Nat.lt_trans hik (hk j hj)
    · split
      · exact h
      · refine List.pairwise_cons.mpr ⟨fun j hj => ?_, ih hrest⟩
        rcases mem_addPosition.mp hj with rfl | hj
        · omega
        · exact hk j hj

/-- The transition with the lookahead that its origin and its symbol call for. -/
def Survey.lookInto (v : Survey) (t : Transition) : Except Failure Transition := do
  match ← v.lookaheadOf t with
  | some l => return t.withLookahead l
  | none => return t

namespace Refinement

/-! ## The passes on lists -/

/-- A reduction is kept if its symbol can come where its rule is complete;
everything else is kept anyway. -/
def isLive (v : Survey) (t : Transition) : Except Failure Bool :=
  match t.move with
  | .reduce _ => do return (← v.firstSet t.origin).contains t.symbol
  | .shift _ _ | .goto _ | .accept => .ok true

def pruneTransitions (v : Survey) (ts : List Transition) : Except Failure (List Transition) :=
  retain (isLive v) ts

def lookAheadBoth (v : Survey) (ts : List Transition) (r s : Nat) :
    Except Failure (List Transition × Bool) :=
  match ts[r]?, ts[s]? with
  | some reduction, some shift =>
      if reduction.conflictsWith shift then do
        let shift ← v.lookInto shift
        let reduction ← v.lookInto reduction
        return ((ts.set s shift).set r reduction, true)
      else .ok (ts, false)
  | _, _ => .ok (ts, false)

def lookAheadTransitions (v : Survey) (ts : List Transition) :
    Except Failure (List Transition × List (Nat × Nat)) :=
  let pairs := (positionsOf .reduce ts).flatMap fun r =>
    (positionsOf .shift ts).map fun s => (r, s)
  pairs.foldlM
    (fun (now, noted) pair => do
      let (now, changed) ← lookAheadBoth v now pair.1 pair.2
      return (now, if changed then noted ++ [pair] else noted))
    (ts, [])

/-- A settlement with the transitions in place of the state. -/
structure Ledger where
  transitions : List Transition
  doomed : List Nat
  verdicts : List (Transition × Transition)

/-- The transition at `low` gives up what the one at `high` claims, and is doomed
if the two are in conflict even then. -/
def Ledger.yield (g : Grammar) (m : Ledger) (low : Nat) (lower higher : Transition) : Ledger :=
  let trimmed := lower.withLookahead (lower.lookahead.without g higher.lookahead)
  { transitions := m.transitions.set low trimmed
    doomed := if trimmed.conflictsWith higher then addPosition low m.doomed else m.doomed
    verdicts := m.verdicts ++ [(higher, trimmed)] }

def Ledger.settle (v : Survey) (m : Ledger) (i j : Nat) : Except Failure Ledger :=
  match m.transitions[i]?, m.transitions[j]? with
  | some t, some u =>
      if t.conflictsWith u then do
        let p ← v.priority t
        let q ← v.priority u
        if p < q then return m.yield v.grammar i t u
        else if q < p then return m.yield v.grammar j u t
        else return m
      else .ok m
  | _, _ => .ok m

/-- Settles all pairs and drops what was doomed. -/
def settleTransitions (v : Survey) (ts : List Transition) :
    Except Failure (List Transition × List (Transition × Transition)) := do
  let m ← (settlingOrder ts).foldlM (fun m pair => Ledger.settle v m pair.1 pair.2) ⟨ts, [], []⟩
  let kept := (m.transitions.zipIdx.filter fun entry => !m.doomed.contains entry.2).map Prod.fst
  return (kept, m.verdicts)

def buryTransitions (ts : List Transition) : List Transition :=
  ts.filter fun t => !t.lookahead.isDead

def compactTransitions (ts : List Transition) : List Transition :=
  ts.map fun t => if isSettled ts t then t.withLookahead .any else t

end Refinement

/-! ## Accesses that are answered -/

namespace State

/-- The state with other transitions. -/
def holding (s : State) (ts : List Transition) : State := { s with transitions := ts }

variable (s : State)

theorem transition_holding {ts : List Transition} {i : Nat} {t : Transition} (h : ts[i]? = some t) :
    (s.holding ts).transition i = .ok t := by
  rw [transition, holding, h]

theorem setLookahead_eq_ok {ts : List Transition} {i : Nat} {t : Transition}
    (h : ts[i]? = some t) (l : Lookahead) :
    (s.holding ts).setLookahead i l = .ok (s.holding (ts.set i (t.withLookahead l))) :=
  bind_eq_ok.mpr ⟨t, transition_holding s h, rfl⟩

/-- Removing what stands between two parts leaves the two. -/
theorem remove_between (front back : List Transition) (t : Transition) :
    (s.holding (front ++ t :: back)).remove front.length = .ok (t, s.holding (front ++ back)) := by
  refine bind_eq_ok.mpr ⟨t, transition_holding s (getElem?_between front back t), ?_⟩
  rw [holding, List.eraseIdx_append_of_length_le (Nat.le_refl _), Nat.sub_self]
  rfl

/-- Removal at the positions of what passes a test leaves what does not. -/
theorem removeAll_filter (p : Transition × Nat → Bool) (done ts : List Transition) :
    (s.holding (done ++ ts)).removeAll (((ts.zipIdx done.length).filter p).map Prod.snd) =
      .ok (s.holding (done ++ ((ts.zipIdx done.length).filter fun e => !p e).map Prod.fst)) := by
  induction ts generalizing done with
  | nil => rfl
  | cons t rest ih =>
    have hrest := ih (done ++ [t])
    rw [List.length_append, List.length_singleton, List.append_assoc, List.append_assoc] at hrest
    rw [List.zipIdx_cons, List.filter_cons, List.filter_cons]
    cases hp : p (t, done.length) with
    | true =>
      rw [if_pos rfl, List.map_cons, removeAll, List.reverse_cons, List.foldlM_append]
      refine bind_eq_ok.mpr ⟨_, hrest, ?_⟩
      rw [List.foldlM_cons]
      exact bind_eq_ok.mpr ⟨_, bind_eq_ok.mpr ⟨_, remove_between s done _ t, rfl⟩, rfl⟩
    | false => exact hrest

end State

namespace Refinement

variable (v : Survey) (s : State)

/-! ## A pass is what becomes of the list -/

theorem pruneAt_between (front back : List Transition) {t : Transition} (h : t.kind = .reduce) :
    pruneAt v (s.holding (front ++ t :: back)) front.length =
      (fun live => s.holding (front ++ if live then t :: back else back)) <$> isLive v t := by
  have hlive : isLive v t = v.firstSet t.origin >>= fun set => .ok (set.contains t.symbol) := by
    obtain ⟨origin, symbol, move⟩ := t
    cases move <;> first | rfl | cases h
  have hremove := s.remove_between front back t
  rw [pruneAt, s.transition_holding (getElem?_between front back t), hlive]
  show v.firstSet t.origin >>= _ = _ <$> (v.firstSet t.origin >>= _)
  cases v.firstSet t.origin with
  | error e => rfl
  | ok set =>
    show (if set.contains t.symbol then _ else _) = Except.ok (s.holding (front ++ if _ then _ else _))
    cases set.contains t.symbol with
    | true => rfl
    | false => exact bind_eq_ok.mpr ⟨_, hremove, rfl⟩

theorem pruneAt_filter (done ts : List Transition) :
    (((ts.zipIdx done.length).filter fun e => e.1.kind == .reduce).map Prod.snd).reverse.foldlM
        (pruneAt v) (s.holding (done ++ ts)) =
      (fun kept => s.holding (done ++ kept)) <$> retain (isLive v) ts := by
  induction ts generalizing done with
  | nil => rfl
  | cons t rest ih =>
    have hrest := ih (done ++ [t])
    simp only [List.length_append, List.length_singleton, List.append_assoc,
      List.singleton_append] at hrest
    rw [List.zipIdx_cons, List.filter_cons, retain]
    cases hkind : t.kind == .reduce with
    | false =>
      have hlive : isLive v t = .ok true := by
        obtain ⟨origin, symbol, move⟩ := t
        cases move <;> first | rfl | cases hkind
      rw [if_neg Bool.false_ne_true, hrest, hlive]
      cases retain (isLive v) rest with
      | error e => rfl
      | ok kept => rfl
    | true =>
      rw [if_pos rfl, List.map_cons, List.reverse_cons, List.foldlM_append, hrest]
      cases retain (isLive v) rest with
      | error e => rfl
      | ok kept =>
        show [done.length].foldlM (pruneAt v) (s.holding (done ++ t :: kept)) = _
        rw [List.foldlM_cons, pruneAt_between v s done kept (eq_of_beq hkind)]
        cases isLive v t with
        | error e => rfl
        | ok live => cases live <;> rfl

theorem prune_eq : prune v s = s.holding <$> pruneTransitions v s.transitions :=
  pruneAt_filter v s [] s.transitions

variable {s}

theorem lookAheadAt_eq {ts : List Transition} {i : Nat} {t : Transition} (h : ts[i]? = some t) :
    lookAheadAt v (s.holding ts) i = (fun t' => s.holding (ts.set i t')) <$> v.lookInto t := by
  have hset := s.setLookahead_eq_ok h
  rw [lookAheadAt, s.transition_holding h, Survey.lookInto]
  show v.lookaheadOf t >>= _ = _ <$> (v.lookaheadOf t >>= _)
  cases v.lookaheadOf t with
  | error e => rfl
  | ok found =>
    cases found with
    | some l => exact hset l
    | none =>
      have hsame : ts.set i t = ts := by
        obtain ⟨hi, rfl⟩ := List.getElem?_eq_some_iff.mp h
        exact List.set_getElem_self hi
      show Except.ok (s.holding ts) = .ok (s.holding (ts.set i t))
      rw [hsame]

/-- The second look is at the transition as it was: no transition is in conflict with itself. -/
theorem lookAheadPair_eq {ts : List Transition} {r i : Nat} (hr : r < ts.length)
    (hi : i < ts.length) : lookAheadPair v (s.holding ts) r i =
      (fun m => (s.holding m.1, m.2)) <$> lookAheadBoth v ts r i := by
  have hreduction := List.getElem?_eq_getElem hr
  have hshift := List.getElem?_eq_getElem hi
  rw [lookAheadPair, s.transition_holding hreduction, s.transition_holding hshift, lookAheadBoth,
    hreduction, hshift]
  show (if ts[r].conflictsWith ts[i] then _ else _) = _ <$> if ts[r].conflictsWith ts[i] then _ else _
  split
  · rename_i hconflict
    have hne : i ≠ r := by
      rintro rfl
      rw [Transition.conflictsWith_self] at hconflict
      cases hconflict
    rw [lookAheadAt_eq v hshift]
    cases v.lookInto ts[i] with
    | error e => rfl
    | ok shift =>
      have hstill : (ts.set i shift)[r]? = some ts[r] := by
        rw [List.getElem?_set_ne hne, hreduction]
      show lookAheadAt v (s.holding (ts.set i shift)) r >>= _ = _ <$> (v.lookInto ts[r] >>= _)
      rw [lookAheadAt_eq v hstill]
      cases v.lookInto ts[r] with
      | error e => rfl
      | ok reduction => rfl
  · rfl

theorem length_of_lookAheadBoth {ts ts' : List Transition} {r i : Nat} {changed : Bool}
    (h : lookAheadBoth v ts r i = .ok (ts', changed)) : ts'.length = ts.length := by
  unfold lookAheadBoth at h
  split at h
  · split at h
    · obtain ⟨shift, _, h⟩ := bind_eq_ok.mp h
      obtain ⟨reduction, _, h⟩ := bind_eq_ok.mp h
      cases h
      rw [List.length_set, List.length_set]
    · cases h
      rfl
  · cases h
    rfl

theorem lookAhead_eq (s : State) : lookAhead v s =
    (fun m => (s.holding m.1, m.2)) <$> lookAheadTransitions v s.transitions := by
  refine foldlM_eq_map (fun m : List Transition × List (Nat × Nat) => (s.holding m.1, m.2))
    (fun m => m.1.length = s.transitions.length) (c := (s.transitions, []))
    (fun pair hpair m hm => ?_) rfl
  obtain ⟨r, hr, hpair⟩ := List.mem_flatMap.mp hpair
  obtain ⟨i, hi, rfl⟩ := List.mem_map.mp hpair
  obtain ⟨now, noted⟩ := m
  have hstep := lookAheadPair_eq v (s := s) (hm.symm ▸ lt_of_mem_positionsOf hr)
    (hm.symm ▸ lt_of_mem_positionsOf hi)
  constructor
  · simp only [hstep]
    cases lookAheadBoth v now r i with
    | error e => rfl
    | ok next => rfl
  · intro next hnext
    obtain ⟨⟨ts, changed⟩, hts, hnext⟩ := bind_eq_ok.mp hnext
    cases hnext
    exact (length_of_lookAheadBoth v hts).trans hm

/-! ### Settling -/

/-- A ledger with the state whose transitions it holds. -/
def Ledger.on (s : State) (m : Ledger) : Settlement :=
  { state := s.holding m.transitions, doomed := m.doomed, verdicts := m.verdicts }

theorem yield_eq_ok {m : Ledger} {low high : Nat} {lower higher : Transition}
    (hlow : m.transitions[low]? = some lower) (hhigh : m.transitions[high]? = some higher)
    (hne : low ≠ high) (g : Grammar) :
    (m.on s).yield g low high = .ok ((m.yield g low lower higher).on s) := by
  have htrim : trimAt g (s.holding m.transitions) low high = .ok (s.holding (m.transitions.set low
      (lower.withLookahead (lower.lookahead.without g higher.lookahead)))) :=
    bind_eq_ok.mpr ⟨_, s.transition_holding hhigh, bind_eq_ok.mpr ⟨_, s.transition_holding hlow,
      s.setLookahead_eq_ok hlow _⟩⟩
  have hlow' := List.getElem?_set_self (a := lower.withLookahead
    (lower.lookahead.without g higher.lookahead)) (List.getElem?_eq_some_iff.mp hlow).1
  exact bind_eq_ok.mpr ⟨_, htrim, bind_eq_ok.mpr ⟨_, s.transition_holding hlow',
    bind_eq_ok.mpr ⟨_, s.transition_holding ((List.getElem?_set_ne hne).trans hhigh), rfl⟩⟩⟩

theorem settle_on {m : Ledger} {i j : Nat} (hi : i < m.transitions.length)
    (hj : j < m.transitions.length) :
    Settlement.settle v (m.on s) i j = Ledger.on s <$> m.settle v i j := by
  have ht := List.getElem?_eq_getElem hi
  have hu := List.getElem?_eq_getElem hj
  generalize m.transitions[i] = t at ht
  generalize m.transitions[j] = u at hu
  rw [Settlement.settle, Ledger.on, s.transition_holding ht, s.transition_holding hu, Ledger.settle, ht,
    hu]
  show (if t.conflictsWith u then _ else _) = _ <$> if t.conflictsWith u then _ else _
  split
  · rename_i hconflict
    have hne : i ≠ j := by
      rintro rfl
      cases ht.symm.trans hu
      rw [Transition.conflictsWith_self] at hconflict
      cases hconflict
    cases v.priority t with
    | error e => rfl
    | ok p =>
      cases v.priority u with
      | error e => rfl
      | ok q =>
        show (if p < q then _ else if q < p then _ else _) =
          _ <$> (if p < q then _ else if q < p then _ else _)
        split
        · exact yield_eq_ok ht hu hne v.grammar
        · split
          · exact yield_eq_ok hu ht hne.symm v.grammar
          · rfl
  · rfl

/-- What every settlement keeps: no transition comes or goes, and the doomed positions are those of
some of them, each of them once. -/
structure Ledger.Kept (ts : List Transition) (m : Ledger) : Prop where
  length : m.transitions.length = ts.length
  ascending : m.doomed.Pairwise (· < ·)
  lt : ∀ i ∈ m.doomed, i < ts.length

theorem Ledger.Kept.yield {ts : List Transition} {m : Ledger} (h : m.Kept ts) (g : Grammar)
    {low : Nat} (hlow : low < ts.length) (lower higher : Transition) :
    (m.yield g low lower higher).Kept ts where
  length := (List.length_set ..).trans h.length
  ascending := by
    rw [Ledger.yield]
    split
    · exact pairwise_addPosition low h.ascending
    · exact h.ascending
  lt := by
    rw [Ledger.yield]
    split
    · intro i hi
      rcases mem_addPosition.mp hi with rfl | hi
      · exact hlow
      · exact h.lt i hi
    · exact h.lt

theorem Ledger.Kept.settle {v : Survey} {ts : List Transition} {m m' : Ledger} (h : m.Kept ts)
    {i j : Nat} (hi : i < ts.length) (hj : j < ts.length) (hm : m.settle v i j = .ok m') :
    m'.Kept ts := by
  unfold Ledger.settle at hm
  split at hm
  · split at hm
    · obtain ⟨p, _, hm⟩ := bind_eq_ok.mp hm
      obtain ⟨q, _, hm⟩ := bind_eq_ok.mp hm
      split at hm
      · cases hm
        exact h.yield _ hi _ _
      · split at hm
        · cases hm
          exact h.yield _ hj _ _
        · cases hm
          exact h
    · cases hm
      exact h
  · cases hm
    exact h

/-- Ascending positions are all that a list has of them. -/
theorem eq_positions {positions : List Nat} (h : positions.Pairwise (· < ·))
    {ts : List Transition} (hlt : ∀ i ∈ positions, i < ts.length) :
    positions = (ts.zipIdx.filter fun e => positions.contains e.2).map Prod.snd := by
  have hascending : ((ts.zipIdx.filter fun e => positions.contains e.2).map Prod.snd).Pairwise
      (· < ·) := by
    refine List.Pairwise.sublist (List.filter_sublist.map Prod.snd) ?_
    rw [List.zipIdx_map_snd]
    exact List.pairwise_lt_range'
  refine List.Perm.eq_of_pairwise (fun i j _ _ hij hji => absurd hij (Nat.lt_asymm hji)) h
    hascending ((List.perm_ext_iff_of_nodup (h.imp Nat.ne_of_lt)
      (hascending.imp Nat.ne_of_lt)).mpr fun i => ?_)
  rw [List.mem_map]
  constructor
  · intro hi
    have hlength := hlt i hi
    exact ⟨(ts[i], i), List.mem_filter.mpr ⟨List.mem_zipIdx_iff_getElem?.mpr
      (List.getElem?_eq_getElem hlength), List.contains_iff_mem.mpr hi⟩, rfl⟩
  · rintro ⟨⟨t, j⟩, hmem, rfl⟩
    exact List.contains_iff_mem.mp (List.mem_filter.mp hmem).2

theorem Ledger.kept_start (ts : List Transition) : Ledger.Kept ts ⟨ts, [], []⟩ :=
  { length := rfl
    ascending := .nil
    lt := fun _ h => absurd h List.not_mem_nil }

theorem settleAll_eq (s : State) :
    Settlement.settleAll v ⟨s, [], []⟩ (settlingOrder s.transitions) =
      Ledger.on s <$> (settlingOrder s.transitions).foldlM
        (fun m pair => Ledger.settle v m pair.1 pair.2) ⟨s.transitions, [], []⟩ := by
  refine foldlM_eq_map (Ledger.on s) (Ledger.Kept s.transitions) (c := ⟨s.transitions, [], []⟩)
    (fun pair hpair m hm => ?_) (Ledger.kept_start s.transitions)
  obtain ⟨hi, hj⟩ := lt_of_mem_settlingOrder hpair
  exact ⟨settle_on v (hm.length.symm ▸ hi) (hm.length.symm ▸ hj), fun m' => hm.settle hi hj⟩

/-- The doomed are dropped, wherever they stand. -/
theorem removeAll_doomed {ts : List Transition} {m : Ledger} (h : m.Kept ts) (s : State) :
    (s.holding m.transitions).removeAll m.doomed = .ok (s.holding
      ((m.transitions.zipIdx.filter fun entry => !m.doomed.contains entry.2).map Prod.fst)) := by
  have hremoved := s.removeAll_filter (fun e => m.doomed.contains e.2) [] m.transitions
  have hlt : ∀ i ∈ m.doomed, i < m.transitions.length := fun i hi =>
    h.length.symm ▸ h.lt i hi
  rw [List.length_nil, ← eq_positions h.ascending hlt] at hremoved
  exact hremoved

theorem settle_eq (s : State) : settle v s =
    (fun m => (s.holding m.1, m.2)) <$> settleTransitions v s.transitions := by
  rw [settle, settleAll_eq, settleTransitions]
  cases hm : (settlingOrder s.transitions).foldlM
      (fun m pair => Ledger.settle v m pair.1 pair.2) ⟨s.transitions, [], []⟩ with
  | error e => rfl
  | ok m =>
    have hkept : m.Kept s.transitions := by
      refine foldlM_induction (Ledger.Kept s.transitions) (fun pair hpair m m' hm hstep => ?_)
        (Ledger.kept_start s.transitions) hm
      obtain ⟨hi, hj⟩ := lt_of_mem_settlingOrder hpair
      exact hm.settle hi hj hstep
    show (s.holding m.transitions).removeAll m.doomed >>= _ = _
    rw [removeAll_doomed hkept s]
    rfl

/-! ### Cleaning up -/

theorem filter_zipIdx_fst (p : Transition → Bool) (ts : List Transition) (n : Nat) :
    ((ts.zipIdx n).filter fun e => p e.1).map Prod.fst = ts.filter p := by
  induction ts generalizing n with
  | nil => rfl
  | cons t rest ih =>
    rw [List.zipIdx_cons, List.filter_cons, List.filter_cons]
    cases p t with
    | true => exact congrArg (t :: ·) (ih (n + 1))
    | false => exact ih (n + 1)

theorem bury_eq (s : State) : bury s = .ok (s.holding (buryTransitions s.transitions)) := by
  have h := s.removeAll_filter (fun e => e.1.lookahead.isDead) [] s.transitions
  rw [List.length_nil, filter_zipIdx_fst fun t => !t.lookahead.isDead] at h
  exact h

/-- Replacing at the positions of what passes a test. -/
theorem setLookahead_filter (s : State) (p : Transition → Bool) (l : Lookahead)
    (done ts : List Transition) :
    (((ts.zipIdx done.length).filter fun e => p e.1).map Prod.snd).foldlM
        (fun s i => s.setLookahead i l) (s.holding (done ++ ts)) =
      .ok (s.holding (done ++ ts.map fun t => if p t then t.withLookahead l else t)) := by
  induction ts generalizing done with
  | nil => rfl
  | cons t rest ih =>
    rw [List.zipIdx_cons, List.filter_cons, List.map_cons]
    cases hp : p t with
    | true =>
      have hrest := ih (done ++ [t.withLookahead l])
      have hset := s.setLookahead_eq_ok (getElem?_between done rest t) l
      rw [List.set_append_right _ _ (Nat.le_refl _), Nat.sub_self] at hset
      simp only [List.length_append, List.length_singleton, List.append_assoc,
        List.singleton_append] at hrest
      exact bind_eq_ok.mpr ⟨_, hset, hrest⟩
    | false =>
      have hrest := ih (done ++ [t])
      simp only [List.length_append, List.length_singleton, List.append_assoc,
        List.singleton_append] at hrest
      exact hrest

theorem compact_eq (s : State) : compact s = .ok (s.holding (compactTransitions s.transitions)) := by
  have h := setLookahead_filter s
    (fun t => !t.lookahead.isAny && isSettled s.transitions t) .any [] s.transitions
  refine h.trans (congrArg (fun ts => Except.ok (s.holding ts)) (List.map_congr_left fun t _ => ?_))
  cases hany : t.lookahead.isAny with
  | false => rfl
  | true =>
    show t = if isSettled s.transitions t then t.withLookahead .any else t
    rw [← Lookahead.eq_any_of_isAny hany, t.withLookahead_lookahead, ite_self]

end Refinement

/-! ## All states -/

namespace Automaton

/-- The automaton with the transitions of every state changed. -/
def mapTransitions (f : List Transition → List Transition) (a : Automaton) : Automaton :=
  ⟨a.states.map fun s => s.holding (f s.transitions)⟩

/-- The automaton with the transitions of every state changed by a step that may
fail and that tells something about each state. -/
def traverseTransitions {β : Type} (f : List Transition → Except Failure (List Transition × β))
    (a : Automaton) : Except Failure (Automaton × List (State × β)) := do
  let results ← a.states.mapM fun s => do
    let (ts, note) ← f s.transitions
    return (s.holding ts, note)
  return (⟨results.map Prod.fst⟩, results)

/-- The automaton without what no input can reach and what decides nothing: what the last two passes
leave of it. -/
def cleaned (a : Automaton) : Automaton :=
  (a.mapTransitions Refinement.buryTransitions).mapTransitions Refinement.compactTransitions

variable {β : Type}

theorem reworkAt_eq (f : State → Except Failure (State × β)) {a : Automaton} {i : Nat} {s : State}
    (h : a.states[i]? = some s) (notes : List (State × β)) :
    reworkAt f (a, notes) i =
      (fun result => (⟨a.states.set i result.1⟩, notes ++ [result])) <$> f s := by
  rw [reworkAt, h]
  show f s >>= _ = _
  cases f s <;> rfl

/-- States are replaced one after the other, and none before its turn. -/
theorem foldlM_reworkAt (f : State → Except Failure (State × β)) (done rest : List State)
    (notes : List (State × β)) :
    (List.range' done.length rest.length).foldlM (reworkAt f) (⟨done ++ rest⟩, notes) =
      (fun results => (⟨done ++ results.map Prod.fst⟩, notes ++ results)) <$> rest.mapM f := by
  induction rest generalizing done notes with
  | nil => rw [List.mapM_nil]; simp
  | cons s rest ih =>
    rw [List.length_cons, List.range'_succ, List.foldlM_cons, List.mapM_cons,
      reworkAt_eq f (getElem?_between done rest s)]
    cases f s with
    | error e => rfl
    | ok result =>
      have hrest := ih (done ++ [result.1]) (notes ++ [result])
      have hset : (done ++ s :: rest).set done.length result.1 = (done ++ [result.1]) ++ rest := by
        rw [List.set_append_right _ _ (Nat.le_refl _), Nat.sub_self, List.append_assoc]
        rfl
      rw [List.length_append, List.length_singleton, ← hset] at hrest
      refine hrest.trans ?_
      cases rest.mapM f with
      | error e => rfl
      | ok results =>
        show Except.ok (_, _) = Except.ok (_, _)
        rw [List.append_assoc, List.append_assoc]
        rfl

theorem reworkStates_eq (f : State → Except Failure (State × β)) (a : Automaton) :
    a.reworkStates f =
      (fun results => (⟨results.map Prod.fst⟩, results)) <$> a.states.mapM f := by
  rw [reworkStates, List.range_eq_range']
  exact foldlM_reworkAt f [] a.states []

/-- Where a step is what becomes of the transitions, so is the work on all states. -/
theorem reworkStates_holding {f : State → Except Failure (State × β)}
    {h : List Transition → Except Failure (List Transition × β)}
    (hf : ∀ s, f s = (fun m => (s.holding m.1, m.2)) <$> h s.transitions) (a : Automaton) :
    a.reworkStates f = a.traverseTransitions h := by
  rw [reworkStates_eq, traverseTransitions, funext hf]
  rfl

theorem rework_holding {f : State → Except Failure State}
    {h : List Transition → Except Failure (List Transition)}
    (hf : ∀ s, f s = s.holding <$> h s.transitions) (a : Automaton) :
    a.rework f = Prod.fst <$> a.traverseTransitions fun ts => do return (← h ts, ()) := by
  rw [rework, reworkStates_holding (h := fun ts => do return (← h ts, ()))]
  · rfl
  · intro s
    rw [hf]
    cases h s.transitions <;> rfl

/-- A step that is never refused is taken on every state. -/
theorem rework_eq_ok {f : State → Except Failure State} {h : List Transition → List Transition}
    (hf : ∀ s, f s = .ok (s.holding (h s.transitions))) (a : Automaton) :
    a.rework f = .ok (a.mapTransitions h) := by
  have hstep : ∀ s ∈ a.states, (do return (← f s, ()) : Except Failure (State × Unit)) =
      .ok (s.holding (h s.transitions), ()) := by
    intro s _
    rw [hf]
    rfl
  have hstates : (a.states.map fun s => (s.holding (h s.transitions), ())).map Prod.fst =
      a.states.map fun s => s.holding (h s.transitions) := List.map_map
  rw [rework, reworkStates_eq, mapM_eq_ok_map hstep, mapTransitions, ← hstates]
  rfl

theorem bury_eq (a : Automaton) : a.bury = .ok (a.mapTransitions Refinement.buryTransitions) :=
  rework_eq_ok Refinement.bury_eq a

theorem compact_eq (a : Automaton) :
    a.compact = .ok (a.mapTransitions Refinement.compactTransitions) :=
  rework_eq_ok Refinement.compact_eq a

end Automaton
end ShiftReduce
