/-
Sessions: an automaton that is asked many things while it grows.

The answers about first and follow sets depend on the items of the automaton.  A
session keeps the follow table and the first sets it was asked for, and forgets
them when a state is added.  Editing transitions leaves them alone, since
transitions have no part in them; that is why a session only lets transitions be
replaced and never a whole state.

Every question returns the answer together with the session that remembers it.
-/
import ShiftReduce.Automaton.Source
import ShiftReduce.Automaton.Survey
import ShiftReduce.Automaton.Construction

namespace ShiftReduce

structure Session where
  automaton : Automaton
  /-- The follow table, once it has been needed. -/
  follow? : Option (List SymbolSet)
  /-- The first sets that were asked for. -/
  firsts : List (Site × SymbolSet)

namespace Session

/-- A session that remembers nothing. -/
def start (a : Automaton) : Session := ⟨a, none, []⟩

/-! ## Changes -/

/-- Adds a state.  Only if it is new is anything forgotten. -/
def addState (n : Session) (set : ItemSet) : StateId × Session :=
  match n.automaton.stateWith? set with
  | some id => (id, n)
  | none =>
      let (id, a) := n.automaton.addState set
      (id, start a)

/-- Replaces the transitions of a state. -/
def setTransitions (n : Session) (id : StateId) (ts : List Transition) : Session :=
  { n with
    automaton :=
      ⟨n.automaton.states.modify id.index fun s => { s with transitions := ts }⟩ }

/-- Visits all states and adds what is missing. -/
def populate (g : Grammar) (n : Session) : Session :=
  let a := n.automaton.populate g
  if a.size = n.automaton.size then { n with automaton := a } else start a

/-! ## Questions -/

/-- The follow table. -/
def table (g : Grammar) (n : Session) : List SymbolSet × Session :=
  match n.follow? with
  | some follow => (follow, n)
  | none =>
      let follow := n.automaton.followTable g
      (follow, { n with follow? := some follow })

/-- The terminals that follow a symbol. -/
def followOf (g : Grammar) (n : Session) (x : SymbolId) : SymbolSet × Session :=
  let (follow, n) := n.table g
  (setAt follow x, n)

/-- The terminals that can come at the dot of the item at a site. -/
def firstSet (g : Grammar) (n : Session) (site : Site) : Except Failure SymbolSet × Session :=
  match n.firsts.lookup site with
  | some set => (.ok set, n)
  | none =>
      match n.automaton.item site with
      | .error e => (.error e, n)
      | .ok item =>
          let (follow, n) := n.table g
          let set := item.firstWith g follow
          (.ok set, { n with firsts := (site, set) :: n.firsts })

/-- The terminals that can come behind the symbol at the dot of the item at a
site. -/
def followSet (g : Grammar) (n : Session) (site : Site) : Except Failure SymbolSet × Session :=
  match n.automaton.followSource g site with
  | .error e => (.error e, n)
  | .ok (.ofSymbol x) =>
      let (set, n) := n.followOf g x
      (.ok set, n)
  | .ok (.atSite site) => n.firstSet g site

/-- The lookahead of a shift that stems from the item at a site. -/
def shiftLookahead (g : Grammar) (n : Session) (origin : Site) :
    Except Failure Lookahead × Session :=
  match n.automaton.advancedSite g origin with
  | .error e => (.error e, n)
  | .ok site =>
      let (set, n) := n.firstSet g site
      (set.map Lookahead.ofSet, n)

/-- The lookahead of a reduction to `left` on `trigger`. -/
def reduceLookahead (g : Grammar) (n : Session) (left trigger : SymbolId) : Lookahead × Session :=
  if trigger = .endMarker then (.any, n)
  else
    let (follow, n) := n.table g
    ((Survey.withFollow g n.automaton follow).reduceLookahead left trigger, n)

/-- The lookahead that a transition should carry. -/
def lookaheadFor (g : Grammar) (n : Session) (t : Transition) :
    Except Failure Lookahead × Session :=
  match t.move with
  | .shift _ _ => n.shiftLookahead g t.origin
  | .reduce _ =>
      match n.automaton.item t.origin with
      | .error e => (.error e, n)
      | .ok item =>
          let (l, n) := n.reduceLookahead g (item.left g) t.symbol
          (.ok l, n)
  | .goto _ | .accept => (.ok .any, n)

/-- Computes the lookahead of a transition and puts it in place. -/
def computeLookahead (g : Grammar) (n : Session) (id : StateId) (index : Nat) :
    Except Failure Unit × Session :=
  let found := do (← n.automaton.state id).transition index
  match found with
  | .error e => (.error e, n)
  | .ok t =>
      match n.lookaheadFor g t with
      | (.error e, n) => (.error e, n)
      | (.ok l, n) =>
          let ts := (n.automaton.state? id).elim [] State.transitions
          (.ok (), n.setTransitions id (ts.set index (t.withLookahead l)))

end Session
end ShiftReduce
