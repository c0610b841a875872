/-
Where the answer to a question about an item is found.

The terminals behind the symbol at a dot are those that can come once the dot has moved on.  An item
that the closure added has no place of its own in that: it stands for its left side, so the question
passes to the item that introduced it, and from there on backwards until an item of the kernel or one
with its dot moved is reached.
-/
import ShiftReduce.Automaton.Basic

namespace ShiftReduce

/-- Where the follow set of an item comes from. -/
inductive FollowSource where
  /-- All of a rule is recognised: what follows its left side. -/
  | ofSymbol (x : SymbolId)
  /-- What comes at the dot of another item. -/
  | atSite (site : Site)
deriving DecidableEq

namespace Checked

/-- The first of some items that calls for the rules of a nonterminal. -/
def introducer (g : Grammar) (x : SymbolId) : List Item → Except Failure (Option Nat)
  | [] => .ok none
  | item :: rest => do
      if (← next g item) = some x then return some 0
      else return (← introducer g x rest).map (· + 1)

theorem introducer_lt {g : Grammar} {x : SymbolId} {items : List Item} {p : Nat}
    (h : introducer g x items = .ok (some p)) : p < items.length := by
  induction items generalizing p with
  | nil => cases h
  | cons item rest ih =>
    rw [introducer] at h
    cases hnext : next g item with
    | error e =>
      rw [hnext] at h
      cases h
    | ok found =>
      rw [hnext] at h
      replace h : (if found = some x then .ok (some 0)
        else introducer g x rest >>= fun p => .ok (p.map (· + 1))) = Except.ok (some p) := h
      split at h
      · cases h
        exact Nat.zero_lt_succ _
      · cases hrest : introducer g x rest with
        | error e =>
          rw [hrest] at h
          cases h
        | ok q =>
          rw [hrest] at h
          cases q with
          | none => cases h
          | some q =>
            cases h
            exact Nat.succ_lt_succ (ih hrest)

end Checked

namespace Automaton

/-- Where the follow set of an item of a state comes from.  An item that the
closure added stands for its left side, so the question passes to the item that
introduced it. -/
def followSourceIn (g : Grammar) (a : Automaton) (s : State) (position : Nat) :
    Except Failure FollowSource :=
  match _hitem : s.itemSet.items[position]? with
  | none => .error (.invalidSite s.id.index position)
  | some item => do
      let left ← Checked.left g item
      if item.dot = 0 ∧ s.itemSet.isKernel position = false then
        match _h : Checked.introducer g left (s.itemSet.items.take position) with
        | .ok (some earlier) => a.followSourceIn g s earlier
        | .ok none => .error (.unintroduced (← Checked.render g item))
        | .error e => .error e
      else
        match ← Checked.advance g item with
        | none => return .ofSymbol left
        | some next => return .atSite (← a.locate g next)
termination_by position
decreasing_by
  exact Nat.lt_of_lt_of_le (Checked.introducer_lt ‹_›) (List.length_take_le position _)

/-- Where the follow set of the item at a site comes from. -/
def followSource (g : Grammar) (a : Automaton) (site : Site) : Except Failure FollowSource := do
  let s ← a.state site.state
  a.followSourceIn g s site.position

/-- Where the item of a site is found once its dot has moved on. -/
def advancedSite (g : Grammar) (a : Automaton) (origin : Site) : Except Failure Site := do
  let item ← a.item origin
  match ← Checked.advance g item with
  | none =>
      let r ← Checked.rule g item.rule
      .error (.invalidItem item.rule.index (item.dot + 1) r.right.length)
  | some next => a.locate g next

end Automaton
end ShiftReduce
