/-
Reading a row gives back the deepest of what was put into it.

A row is filled by putting actions under a column and a lookahead.  A look-up follows the
input through nested tables as far as they go, and what answers it is a plain entry or the
wildcard of the last table.  So two things are known of an answer: what it is, and how deep
it was found.  Putting an action under a lookahead leaves an answer too, the action where
the lookahead matches all of the input and nothing where it stops matching, and
`reading_insert` says that the two combine by depth: the deeper one counts, and of two at
one depth the earlier one, if it says anything.

So a deep put without an answer covers up an action put less deep.  That is why
`Put.reading_foldl_into` speaks of all puts under a column, and not only of those whose
lookahead matches the input.
-/
import ShiftReduce.Proofs.Parser.Basic
import ShiftReduce.Proofs.Outcome

namespace ShiftReduce
namespace Action

/-- The entry does not depend on the input behind its symbol. -/
def isPlain : Action → Bool
  | lookahead _ _ => false
  | accept | shift _ | reduce _ _ _ => true

theorem resolve_of_isPlain {a : Action} (h : a.isPlain = true) (rest : List String) :
    a.resolve rest = some a := by
  cases a with
  | lookahead table wildcard => cases h
  | accept => cases rest <;> rfl
  | shift next => cases rest <;> rfl
  | reduce rule left symbols => cases rest <;> rfl

/-! ## Answers and their depth -/

/-- What a look-up ended with, and after how many entries. -/
structure Answer where
  depth : Nat
  action : Option Action

namespace Answer

/-- The deeper one of two answers.  At one depth the first one stands if it says anything. -/
def deeper (p q : Answer) : Answer :=
  if p.depth < q.depth then q
  else if q.depth < p.depth then p
  else ⟨p.depth, p.action.or q.action⟩

/-- The same answer, found below another entry. -/
def below (p : Answer) : Answer := ⟨p.depth + 1, p.action⟩

variable {p q r : Answer}

theorem deeper_of_lt (h : p.depth < q.depth) : p.deeper q = q := if_pos h

theorem deeper_of_gt (h : q.depth < p.depth) : p.deeper q = p := by
  rw [deeper, if_neg (Nat.lt_asymm h), if_pos h]

theorem deeper_of_eq (h : p.depth = q.depth) : p.deeper q = ⟨p.depth, p.action.or q.action⟩ := by
  rw [deeper, if_neg (by omega), if_neg (by omega)]

theorem deeper_mk (depth : Nat) (first second : Option Action) :
    deeper ⟨depth, first⟩ ⟨depth, second⟩ = ⟨depth, first.or second⟩ :=
  deeper_of_eq rfl

/-- Nothing said less deep or equally deep makes no difference. -/
theorem deeper_silent (h : q.depth ≤ p.depth) (hq : q.action = none) : p.deeper q = p := by
  rcases Nat.lt_or_eq_of_le h with hlt | heq
  · exact deeper_of_gt hlt
  · rw [deeper_of_eq heq.symm, hq, Option.or_none]

theorem silent_deeper (h : p.depth ≤ q.depth) (hp : p.action = none) : p.deeper q = q := by
  rcases Nat.lt_or_eq_of_le h with hlt | heq
  · exact deeper_of_lt hlt
  · rw [deeper_of_eq heq, hp, Option.none_or, heq]

theorem depth_deeper (p q : Answer) : (p.deeper q).depth = max p.depth q.depth := by
  unfold deeper
  split
  · omega
  · split
    · omega
    · show p.depth = max p.depth q.depth
      omega

theorem deeper_assoc (p q r : Answer) : (p.deeper q).deeper r = p.deeper (q.deeper r) := by
  unfold deeper
  grind

theorem deeper_self (p : Answer) : p.deeper p = p := by
  rw [deeper_of_eq rfl, Option.or_self]

theorem below_deeper (p q : Answer) : (p.deeper q).below = p.below.deeper q.below := by
  simp only [deeper, below, Nat.add_lt_add_iff_right]
  split
  · rfl
  · split <;> rfl

theorem action_deeper {action : Action} (h : (p.deeper q).action = some action) :
    (p.action = some action ∧ p.depth = (p.deeper q).depth) ∨
      (q.action = some action ∧ q.depth = (p.deeper q).depth) := by
  rcases Nat.lt_trichotomy p.depth q.depth with hlt | heq | hgt
  · rw [deeper_of_lt hlt] at h ⊢
    exact Or.inr ⟨h, rfl⟩
  · rw [deeper_of_eq heq] at h ⊢
    rcases Option.or_eq_some_iff.mp h with h | ⟨_, h⟩
    · exact Or.inl ⟨h, rfl⟩
    · exact Or.inr ⟨h, heq.symm⟩
  · rw [deeper_of_gt hgt] at h ⊢
    exact Or.inl ⟨h, rfl⟩

theorem deeper_ne_none (h : p.action ≠ none ∧ q.depth ≤ p.depth ∨
    q.action ≠ none ∧ p.depth ≤ q.depth) : (p.deeper q).action ≠ none := by
  rcases Nat.lt_trichotomy p.depth q.depth with hlt | heq | hgt
  · rw [deeper_of_lt hlt]
    exact (h.resolve_left fun h => by omega).1
  · rw [deeper_of_eq heq]
    rcases h with ⟨h, _⟩ | ⟨h, _⟩
    · simp [h]
    · simp [h]
  · rw [deeper_of_gt hgt]
    exact (h.resolve_right fun h => by omega).1

/-! ### The deepest of many -/

theorem le_foldl_deeper (ps : List Answer) (start : Answer) :
    start.depth ≤ (ps.foldl deeper start).depth := by
  induction ps generalizing start with
  | nil => exact Nat.le_refl _
  | cons p rest ih =>
    have hstep := depth_deeper start p
    have hrest := ih (start.deeper p)
    rw [List.foldl_cons]
    omega

theorem depth_le_foldl_deeper {ps : List Answer} (start : Answer) (hp : p ∈ ps) :
    p.depth ≤ (ps.foldl deeper start).depth := by
  induction ps generalizing start with
  | nil => exact absurd hp List.not_mem_nil
  | cons first rest ih =>
    rw [List.foldl_cons]
    rcases List.mem_cons.mp hp with rfl | hp
    · have hstep := depth_deeper start p
      have hrest := le_foldl_deeper rest (start.deeper p)
      omega
    · exact ih (start.deeper first) hp

/-- What the deepest answer says was said by some answer at its depth. -/
theorem exists_mem_of_foldl_deeper {ps : List Answer} {start : Answer} {action : Action}
    (h : (ps.foldl deeper start).action = some action) :
    ∃ p ∈ start :: ps, p.action = some action ∧ p.depth = (ps.foldl deeper start).depth := by
  induction ps generalizing start with
  | nil => exact ⟨start, List.mem_cons_self, h, rfl⟩
  | cons first rest ih =>
    rw [List.foldl_cons] at h ⊢
    obtain ⟨p, hp, haction, hdepth⟩ := ih h
    by_cases hmem : p ∈ rest
    · exact ⟨p, by simp [hmem], haction, hdepth⟩
    · have hp : p = start.deeper first := (List.mem_cons.mp hp).resolve_right hmem
      rw [hp] at haction hdepth
      rcases action_deeper haction with ⟨hspeaks, heq⟩ | ⟨hspeaks, heq⟩
      · exact ⟨start, by simp, hspeaks, heq.trans hdepth⟩
      · exact ⟨first, by simp, hspeaks, heq.trans hdepth⟩

/-- Something is said as soon as some answer does that no other is deeper than. -/
theorem foldl_deeper_ne_none {ps : List Answer} {start : Answer} (hp : p ∈ start :: ps)
    (haction : p.action ≠ none) (hmax : ∀ q ∈ start :: ps, q.depth ≤ p.depth) :
    (ps.foldl deeper start).action ≠ none := by
  induction ps generalizing start p with
  | nil =>
    rw [List.mem_singleton.mp hp] at haction
    exact haction
  | cons first rest ih =>
    have hstart := hmax start List.mem_cons_self
    have hfirst := hmax first (by simp)
    have hdepth := depth_deeper start first
    have hnext : ∀ q ∈ start.deeper first :: rest, q.depth ≤ p.depth := by
      intro q hq
      rcases List.mem_cons.mp hq with rfl | hq
      · omega
      · exact hmax q (by simp [hq])
    have hcovers : (start.deeper first).action ≠ none → p.depth ≤ (start.deeper first).depth →
        ((first :: rest).foldl deeper start).action ≠ none := fun hspeaks hle =>
      ih List.mem_cons_self hspeaks fun q hq => Nat.le_trans (hnext q hq) hle
    rcases List.mem_cons.mp hp with rfl | hp
    · exact hcovers (deeper_ne_none (Or.inl ⟨haction, hfirst⟩)) (by omega)
    · rcases List.mem_cons.mp hp with rfl | hp
      · exact hcovers (deeper_ne_none (Or.inr ⟨haction, hstart⟩)) (by omega)
      · exact ih (List.mem_cons_of_mem _ hp) haction hnext

end Answer

/-! ## Reading an entry -/

/-- The answer of an entry, or of the lack of one. -/
def reading (entry : Option Action) (rest : List String) : Answer :=
  match entry, rest with
  | none, _ => ⟨0, none⟩
  | some (lookahead table wildcard), name :: more =>
      match Row.find? table name with
      | some inner => (reading (some inner) more).below
      | none => ⟨1, wildcard⟩
  | some (lookahead _ wildcard), [] => ⟨1, wildcard⟩
  | some plain, _ => ⟨1, some plain⟩
termination_by structural rest

theorem reading_none (rest : List String) : reading none rest = ⟨0, none⟩ := by
  cases rest <;> rfl

theorem reading_of_isPlain {a : Action} (h : a.isPlain = true) (rest : List String) :
    reading (some a) rest = ⟨1, some a⟩ := by
  cases a with
  | lookahead table wildcard => cases h
  | accept => cases rest <;> rfl
  | shift next => cases rest <;> rfl
  | reduce rule left symbols => cases rest <;> rfl

theorem depth_reading_pos (a : Action) (rest : List String) :
    0 < (reading (some a) rest).depth := by
  unfold reading
  split
  · contradiction
  · split
    · exact Nat.succ_pos _
    · exact Nat.one_pos
  · exact Nat.one_pos
  · exact Nat.one_pos

/-- The answer is what the entry says on this input. -/
theorem action_reading (entry : Option Action) (rest : List String) :
    (reading entry rest).action = entry.bind fun a => a.resolve rest := by
  induction rest generalizing entry with
  | nil =>
    cases entry with
    | none => rfl
    | some a => cases a <;> rfl
  | cons name more ih =>
    cases entry with
    | none => rfl
    | some a =>
      cases a with
      | lookahead table wildcard =>
        simp only [reading, Option.bind_some, resolve]
        cases Row.find? table name with
        | none => rfl
        | some inner => exact ih (some inner)
      | accept => rfl
      | shift next => rfl
      | reduce rule left symbols => rfl

/-- A table has its wildcard for what nothing below it answers. -/
theorem reading_lookahead (table : Row Action) (wildcard : Option Action) (name : String)
    (more : List String) : reading (some (lookahead table wildcard)) (name :: more) =
      Answer.deeper ⟨1, wildcard⟩ (reading (table.find? name) more).below := by
  rw [reading]
  cases Row.find? table name with
  | none =>
    rw [reading_none]
    exact (Answer.deeper_silent (Nat.le_refl 1) rfl).symm
  | some inner =>
    have hpos := depth_reading_pos inner more
    exact (Answer.deeper_of_lt (Nat.succ_lt_succ hpos)).symm

/-- Turning an entry into a table is as good as putting nothing at its depth. -/
theorem reading_asTable (entry : Option Action) (rest : List String) :
    reading (some (lookahead (asTable entry).1 (asTable entry).2)) rest =
      (reading entry rest).deeper ⟨1, none⟩ := by
  cases entry with
  | none =>
    rw [reading_none, Answer.silent_deeper (Nat.zero_le 1) rfl]
    cases rest <;> rfl
  | some a =>
    rw [Answer.deeper_silent (q := ⟨1, none⟩) (depth_reading_pos a rest) rfl]
    cases a with
    | lookahead table wildcard => rfl
    | accept => cases rest <;> rfl
    | shift next => cases rest <;> rfl
    | reduce rule left symbols => cases rest <;> rfl

/-! ## Putting an action in -/

/-- The answer that an action leaves where it is put: nothing, where its lookahead stops
matching the input. -/
def putting (action : Action) : List (List String) → List String → Answer
  | [], _ => ⟨1, some action⟩
  | _ :: _, [] => ⟨1, none⟩
  | names :: more, name :: rest =>
      if name ∈ names then (putting action more rest).below else ⟨1, none⟩

theorem depth_putting_pos (action : Action) (positions : List (List String))
    (rest : List String) : 0 < (putting action positions rest).depth := by
  unfold putting
  split
  · exact Nat.one_pos
  · exact Nat.one_pos
  · split
    · exact Nat.succ_pos _
    · exact Nat.one_pos

theorem find?_insertPlain_of_ne {action : Action} {column other : String} (h : other ≠ column)
    (row : Row Action) : (insertPlain action column row).find? other = row.find? other := by
  unfold insertPlain
  split
  · exact Row.find?_put_of_ne h _ row
  · exact Row.find?_put_of_ne h _ row
  · rfl

theorem find?_insert_of_ne {action : Action} {column other : String} (h : other ≠ column)
    (positions : List (List String)) (row : Row Action) :
    (insert action positions column row).find? other = row.find? other := by
  cases positions with
  | nil => exact find?_insertPlain_of_ne h row
  | cons names rest => exact Row.find?_put_of_ne h _ row

variable {action : Action}

/-- What putting an action under each of some names adds to a look-up. -/
theorem reading_foldl_insert {more : List (List String)} {names : List String}
    (ih : ∀ (column : String) (row : Row Action) (rest : List String),
      reading ((insert action more column row).find? column) rest =
        (reading (row.find? column) rest).deeper (putting action more rest))
    (table : Row Action) (name : String) (rest : List String) :
    reading
        ((names.foldl (fun table name => insert action more name table) table).find? name) rest =
      if name ∈ names then (reading (table.find? name) rest).deeper (putting action more rest)
      else reading (table.find? name) rest := by
  induction names generalizing table with
  | nil => rfl
  | cons first others ihnames =>
    rw [List.foldl_cons, ihnames]
    by_cases e : name = first
    · subst e
      rw [ih, if_pos List.mem_cons_self, Answer.deeper_assoc, Answer.deeper_self, ite_self]
    · rw [find?_insert_of_ne e]
      simp only [List.mem_cons, e, false_or]

section Plain

variable (hplain : action.isPlain = true)

include hplain

/-- An action without lookahead is found unless the entry has a fallback already. -/
theorem reading_insertPlain (column : String) (row : Row Action) (rest : List String) :
    reading ((insertPlain action column row).find? column) rest =
      (reading (row.find? column) rest).deeper ⟨1, some action⟩ := by
  have hwildcard : ∀ (table : Row Action) (wildcard : Option Action),
      reading (some (lookahead table (wildcard.or (some action)))) rest =
        (reading (some (lookahead table wildcard)) rest).deeper ⟨1, some action⟩ := by
    intro table wildcard
    cases rest with
    | nil => exact (Answer.deeper_mk 1 wildcard (some action)).symm
    | cons name more =>
      simp only [reading]
      cases Row.find? table name with
      | none => exact (Answer.deeper_mk 1 wildcard (some action)).symm
      | some inner =>
        have hpos := depth_reading_pos inner more
        exact (Answer.deeper_of_gt (Nat.succ_lt_succ hpos)).symm
  unfold insertPlain
  split
  · rename_i h
    rw [Row.find?_put_self, h, reading_none, reading_of_isPlain hplain,
      Answer.silent_deeper (Nat.zero_le 1) rfl]
  · rename_i table h
    rw [Row.find?_put_self, h]
    exact hwildcard table none
  · rename_i entry hno h
    rw [h]
    cases hentry : entry.isPlain with
    | true =>
      rw [reading_of_isPlain hentry]
      exact (Answer.deeper_mk 1 (some entry) (some action)).symm
    | false =>
      cases entry with
      | lookahead table wildcard =>
        cases wildcard with
        | none => exact absurd rfl (hno table)
        | some w => exact hwildcard table (some w)
      | accept => cases hentry
      | shift next => cases hentry
      | reduce rule left symbols => cases hentry

/-- What an insertion adds to a look-up under its column. -/
theorem reading_insert (positions : List (List String)) (column : String) (row : Row Action)
    (rest : List String) : reading ((insert action positions column row).find? column) rest =
      (reading (row.find? column) rest).deeper (putting action positions rest) := by
  induction positions generalizing column row rest with
  | nil => exact reading_insertPlain hplain column row rest
  | cons names more ih =>
    -- what is put lies no higher than the table that the entry is turned into
    have hpos := depth_putting_pos action (names :: more) rest
    have hsilent := Answer.silent_deeper (p := ⟨1, none⟩) hpos rfl
    rw [← hsilent, ← Answer.deeper_assoc, ← reading_asTable, insert, Row.find?_put_self]
    cases rest with
    | nil => exact (Answer.deeper_silent (Nat.le_refl 1) rfl).symm
    | cons name rest =>
      rw [reading_lookahead, reading_lookahead, reading_foldl_insert ih, putting]
      split
      · rw [Answer.below_deeper, Answer.deeper_assoc]
      · rw [Answer.deeper_silent (q := ⟨1, none⟩) _ rfl]
        rw [Answer.depth_deeper]
        exact Nat.le_max_left _ _

end Plain
end Action

/-! ## Many puts -/

/-- An action with the place where it is put. -/
structure Put where
  column : String
  positions : List (List String)
  action : Action

namespace Put

def into (row : Row Action) (p : Put) : Row Action := p.action.insert p.positions p.column row

/-- The answer it leaves on this input. -/
def answer (p : Put) (rest : List String) : Action.Answer := p.action.putting p.positions rest

/-- A look-up is answered by the deepest of what was put under its column. -/
theorem reading_foldl_into {puts : List Put} (hplain : ∀ p ∈ puts, p.action.isPlain = true)
    (row : Row Action) (column : String) (rest : List String) :
    Action.reading ((puts.foldl into row).find? column) rest =
      ((puts.filter fun p => p.column == column).map fun p => p.answer rest).foldl
        Action.Answer.deeper (Action.reading (row.find? column) rest) := by
  induction puts generalizing row with
  | nil => rfl
  | cons p others ih =>
    rw [List.foldl_cons, ih fun q hq => hplain q (List.mem_cons_of_mem p hq), into]
    by_cases e : p.column = column
    · rw [List.filter_cons_of_pos (by simpa using e), List.map_cons, List.foldl_cons, ← e,
        Action.reading_insert (hplain p List.mem_cons_self)]
      rfl
    · rw [List.filter_cons_of_neg (by simpa using e), Action.find?_insert_of_ne (Ne.symm e)]

end Put

namespace Row

/-- What a row says on this input. -/
def read (row : Row Action) : List String → Option Action
  | [] => none
  | name :: rest => (row.find? name).bind fun entry => entry.resolve rest

theorem read_cons (row : Row Action) (name : String) (rest : List String) :
    row.read (name :: rest) = (Action.reading (row.find? name) rest).action :=
  (Action.action_reading _ rest).symm

end Row
end ShiftReduce
