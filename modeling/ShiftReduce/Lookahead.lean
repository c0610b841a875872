/-
Lookaheads.

A lookahead says which input may follow the symbol that triggers a transition:
its first set constrains the symbol right behind the trigger, its second set the
one after that, and so on.  Without any set all input is allowed.
-/
import ShiftReduce.Grammar.Render

namespace ShiftReduce

/-- One set of symbols for each position behind the trigger. -/
structure Lookahead where
  positions : List SymbolSet
deriving DecidableEq

namespace Lookahead

/-- Allows everything. -/
def any : Lookahead := ⟨[]⟩

/-- A lookahead of one position, or of none if the set is empty. -/
def ofSet (s : SymbolSet) : Lookahead := if s.isEmpty then any else ⟨[s]⟩

def size (l : Lookahead) : Nat := l.positions.length

/-- No position is constrained. -/
def isAny (l : Lookahead) : Bool := l.positions.isEmpty

theorem eq_any_of_isAny {l : Lookahead} (h : l.isAny = true) : l = .any := by
  obtain ⟨positions⟩ := l
  exact congrArg Lookahead.mk (List.isEmpty_iff.mp h)

/-- Some position that both constrain leaves them nothing in common. -/
def disjoint (a b : Lookahead) : Bool :=
  (a.positions.zip b.positions).any fun entry => entry.1.disjoint entry.2

theorem disjoint_comm (a b : Lookahead) : a.disjoint b = b.disjoint a := by
  cases a with
  | mk as =>
    cases b with
    | mk bs =>
      show ((as.zip bs).any fun entry => entry.1.disjoint entry.2) =
        ((bs.zip as).any fun entry => entry.1.disjoint entry.2)
      induction as generalizing bs with
      | nil => cases bs <;> rfl
      | cons s rest ih =>
        cases bs with
        | nil => rfl
        | cons t more =>
          rw [List.zip_cons_cons, List.zip_cons_cons, List.any_cons, List.any_cons, ih more,
            SymbolSet.disjoint_comm]

/-- `a` without the input that `b` claims with its first set.  A lookahead that
allows everything first turns into one that allows every input symbol. -/
def without (g : Grammar) (a b : Lookahead) : Lookahead :=
  match b.positions, a.positions with
  | [], _ => a
  | claimed :: _, [] => ⟨[g.terminalSet \ claimed]⟩
  | claimed :: _, own :: rest => ⟨(own \ claimed) :: rest⟩

/-- With an empty set at some position nothing is allowed. -/
def isDead (l : Lookahead) : Bool := l.positions.any SymbolSet.isEmpty

/-- The sets one after the other, if all their symbols belong to the grammar. -/
def render? (g : Grammar) (l : Lookahead) : Option String :=
  (l.positions.mapM (SymbolSet.render? g)).map (" ".intercalate ·)

end Lookahead
end ShiftReduce
