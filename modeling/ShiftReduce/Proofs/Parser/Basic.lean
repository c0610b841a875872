/-
The parser that tables are for.

It keeps a stack of states and what is left of the input.  The entry of the top
state under the next symbol says what to do: read the symbol and push a state;
take as many states off as a rule has symbols on its right and push the one that
the state now on top goes to; or accept.  Without an entry it is stuck, and the
input refused.

`step?` is a function, so a run is a matter of its start alone.  A run is told by
`Reaches`; the rules reduced by are kept, the last one first, since that is the
order in which they derive the input.
-/
import ShiftReduce.Table.Basic
import Mathlib.Logic.Relation

namespace ShiftReduce

/-- What an entry says with this input behind its symbol.  An entry that depends on
the next symbol passes the question on to what it has under that symbol, or answers
with its wildcard. -/
def Action.resolve (entry : Action) (rest : List String) : Option Action :=
  match entry, rest with
  | .lookahead table wildcard, name :: more =>
      match Row.find? table name with
      | some inner => inner.resolve more
      | none => wildcard
  | .lookahead _ wildcard, [] => wildcard
  | plain, _ => some plain
termination_by structural rest

structure Configuration where
  /-- The states entered and not left yet, the last one first. -/
  stack : List Nat
  /-- What has not been read yet. -/
  input : List String
  /-- The rules reduced by, the last one first. -/
  reduced : List Nat

namespace Tables

/-- What to do in a state with this input ahead. -/
def decide? (t : Tables) (state : Nat) : List String → Option Action
  | [] => none
  | name :: rest => (t.action? state name).bind fun entry => entry.resolve rest

def step? (t : Tables) (c : Configuration) : Option Configuration :=
  match c.stack with
  | [] => none
  | state :: _ =>
      match t.decide? state c.input with
      | some (.shift next) => some { c with stack := next :: c.stack, input := c.input.tail }
      | some (.reduce rule left symbols) =>
          match c.stack.drop symbols.length with
          | [] => none
          | below :: more =>
              (t.goto? below left).map fun next =>
                { c with stack := next :: below :: more, reduced := rule :: c.reduced }
      | _ => none

/-- The configuration a run starts with: in the first state, with all of the input. -/
def start (input : List String) : Configuration := { stack := [0], input, reduced := [] }

/-- A run leads from one configuration to the other. -/
def Reaches (t : Tables) : Configuration → Configuration → Prop :=
  Relation.ReflTransGen fun c d => t.step? c = some d

/-- The parser accepts in this configuration. -/
def accepts (t : Tables) (c : Configuration) : Bool :=
  match c.stack with
  | [] => false
  | state :: _ =>
      match t.decide? state c.input with
      | some .accept => true
      | _ => false

/-- Lets the parser run for so many steps, and tells the rules it has reduced by if it
accepts by then. -/
def run? (t : Tables) : Nat → Configuration → Option (List Nat)
  | 0, _ => none
  | bound + 1, c => if t.accepts c then some c.reduced else (t.step? c).bind (t.run? bound)

/-- The configuration so many steps on, unless the parser comes to an end before. -/
def after? (t : Tables) : Nat → Configuration → Option Configuration
  | 0, c => some c
  | steps + 1, c => (t.step? c).bind (t.after? steps)

/-- The parser accepts the input, having reduced by these rules, the last one first. -/
def Accepts (t : Tables) (input : List String) (reduced : List Nat) : Prop :=
  ∃ c, t.Reaches (start input) c ∧ t.accepts c = true ∧ c.reduced = reduced

theorem step?_eq_some {t : Tables} {c d : Configuration} (h : t.step? c = some d) :
    ∃ (state : Nat) (below : List Nat), c.stack = state :: below ∧
      ((∃ next, t.decide? state c.input = some (.shift next) ∧
        d = { c with stack := next :: c.stack, input := c.input.tail }) ∨
      ∃ (rule : Nat) (left : String) (symbols : List (Option String)) (top : Nat)
        (more : List Nat) (next : Nat),
        t.decide? state c.input = some (.reduce rule left symbols) ∧
          c.stack.drop symbols.length = top :: more ∧ t.goto? top left = some next ∧
            d = { c with stack := next :: top :: more, reduced := rule :: c.reduced }) := by
  rw [step?] at h
  split at h
  · cases h
  · rename_i state below hstack
    refine ⟨state, below, hstack, ?_⟩
    split at h
    · rename_i next hdecide
      exact Or.inl ⟨next, hdecide, (Option.some.inj h).symm⟩
    · rename_i rule left symbols hdecide
      split at h
      · cases h
      · rename_i top more hdrop
        obtain ⟨next, hgoto, h⟩ := Option.map_eq_some_iff.mp h
        exact Or.inr ⟨rule, left, symbols, top, more, next, hdecide, hdrop, hgoto, h.symm⟩
    · cases h

theorem accepts_iff {t : Tables} {c : Configuration} :
    t.accepts c = true ↔ ∃ (state : Nat) (more : List Nat), c.stack = state :: more ∧
      t.decide? state c.input = some .accept := by
  rw [accepts]
  constructor
  · intro h
    split at h
    · cases h
    · rename_i state more hstack
      split at h
      · rename_i haccept
        exact ⟨state, more, hstack, haccept⟩
      · cases h
  · rintro ⟨state, more, hstack, haccept⟩
    simp only [hstack, haccept]

theorem step?_of_accepts {t : Tables} {c : Configuration} (h : t.accepts c = true) :
    t.step? c = none := by
  obtain ⟨state, more, hstack, haccept⟩ := accepts_iff.mp h
  rw [step?, hstack]
  simp only [haccept]

theorem reaches_of_after? {t : Tables} {steps : Nat} {c d : Configuration}
    (h : t.after? steps c = some d) : t.Reaches c d := by
  induction steps generalizing c with
  | zero =>
    cases h
    exact .refl
  | succ steps ih =>
    obtain ⟨e, hstep, h⟩ := Option.bind_eq_some_iff.mp h
    exact (ih h).head hstep

/-- What a run finds out within a bound is so. -/
theorem accepts_of_run? {t : Tables} {input : List String} {bound : Nat} {reduced : List Nat}
    (h : t.run? bound (start input) = some reduced) : t.Accepts input reduced := by
  have run : ∀ (bound : Nat) (c : Configuration), t.Reaches (start input) c →
      t.run? bound c = some reduced → t.Accepts input reduced := by
    intro bound
    induction bound with
    | zero =>
      intro c _ h
      cases h
    | succ bound ih =>
      intro c hc h
      rw [run?] at h
      split at h
      · rename_i haccept
        exact ⟨c, hc, haccept, Option.some.inj h⟩
      · obtain ⟨d, hd, h⟩ := Option.bind_eq_some_iff.mp h
        exact ih d (hc.tail hd) h
  exact run bound (start input) .refl h

/-- Of two runs from one configuration, one goes on where the other stopped. -/
theorem Reaches.total {t : Tables} {c d d' : Configuration} (h : t.Reaches c d)
    (h' : t.Reaches c d') : t.Reaches d d' ∨ t.Reaches d' d := by
  have hunique : Relator.RightUnique fun c d : Configuration => t.step? c = some d :=
    fun _ _ _ hd hd' => Option.some.inj (hd.symm.trans hd')
  exact Relation.ReflTransGen.total_of_right_unique hunique h h'

theorem Reaches.eq_of_step?_none {t : Tables} {c d : Configuration} (h : t.Reaches c d)
    (hc : t.step? c = none) : c = d := by
  rcases h.cases_head with e | ⟨d', hstep, _⟩
  · exact e
  · rw [hc] at hstep
    cases hstep

/-- Where two runs from one configuration both end, they end in the same. -/
theorem Reaches.end_unique {t : Tables} {c d d' : Configuration} (h : t.Reaches c d)
    (h' : t.Reaches c d') (hd : t.step? d = none) (hd' : t.step? d' = none) : d = d' := by
  rcases Reaches.total h h' with hdd' | hd'd
  · exact Reaches.eq_of_step?_none hdd' hd
  · exact (Reaches.eq_of_step?_none hd'd hd').symm

/-- Input is accepted in one way at most. -/
theorem Accepts.reduced_unique {t : Tables} {input : List String} {rs rs' : List Nat}
    (h : t.Accepts input rs) (h' : t.Accepts input rs') : rs = rs' := by
  obtain ⟨c, hc, haccept, rfl⟩ := h
  obtain ⟨c', hc', haccept', rfl⟩ := h'
  rw [hc.end_unique hc' (step?_of_accepts haccept) (step?_of_accepts haccept')]

end Tables
end ShiftReduce
