/-
Reading definitions from tokens.

A definition has no terminator: it ends where the next one begins, and one begins
where the second token ahead is the delimiter.  So each step looks at most two
tokens ahead.

  definition  =  name  ::=  alternative  { "|" alternative }
  alternative =  { name }  [ @integer ]

An empty alternative is allowed.  Each function returns what it read and the
tokens it left.  The lemmas say that no token is invented, which is also why the
recursion ends: an alternative may leave everything, but the bar that introduces
it and the name of a definition are always used up.
-/
import ShiftReduce.Bnf.Token
import ShiftReduce.Grammar.Error

namespace ShiftReduce
namespace Bnf

/-- Whether a definition begins here, as far as one can see from the delimiter. -/
def startsDefinition : List String → Bool
  | _ :: second :: _ => second == delimiter
  | _ => false

/-- Whether an alternative ends here: at the end, at a bar, or where a definition
begins. -/
def endsAlternative : List String → Bool
  | [] => true
  | token :: rest => token == bar || startsDefinition (token :: rest)

/-- Reads one alternative as far as it goes. -/
def readAlternative : List String → Except GrammarError (Alternative × List String)
  | [] => .ok (⟨[], 0⟩, [])
  | token :: rest =>
      if endsAlternative (token :: rest) then .ok (⟨[], 0⟩, token :: rest)
      else if token = delimiter then .error (.malformed .strayDelimiter)
      else
        match priorityText? token with
        | some level =>
            match integer? level with
            | none => .error (.malformed .priorityNotInteger)
            | some priority =>
                if endsAlternative rest then .ok (⟨[], priority⟩, rest)
                else .error (.malformed .priorityNotLast)
        | none =>
            match readAlternative rest with
            | .error e => .error e
            | .ok (tail, left) => .ok (⟨.ofToken token :: tail.symbols, tail.priority⟩, left)

/-- An alternative leaves no more tokens than it was given. -/
theorem length_readAlternative {ts rest : List String} {a : Alternative}
    (h : readAlternative ts = .ok (a, rest)) : rest.length ≤ ts.length := by
  induction ts generalizing a rest with
  | nil =>
    rw [readAlternative] at h
    cases h
    exact Nat.le_refl _
  | cons token ts ih =>
    rw [readAlternative] at h
    split at h
    · cases h
      exact Nat.le_refl _
    · split at h
      · cases h
      · split at h
        · split at h
          · cases h
          · split at h
            · cases h
              exact Nat.le_succ _
            · cases h
        · split at h
          · cases h
          · rename_i hr
            cases h
            exact Nat.le_succ_of_le (ih hr)

/-- Reads an alternative and then, as long as a bar follows, the next one. -/
def readAlternatives (ts : List String) : Except GrammarError (List Alternative × List String) :=
  match _h : readAlternative ts with
  | .error e => .error e
  | .ok (a, []) => .ok ([a], [])
  | .ok (a, token :: rest) =>
      if token = bar then
        match readAlternatives rest with
        | .error e => .error e
        | .ok (more, left) => .ok (a :: more, left)
      else .ok ([a], token :: rest)
termination_by ts.length
decreasing_by exact length_readAlternative ‹_›

theorem length_readAlternatives {ts rest : List String} {as : List Alternative}
    (h : readAlternatives ts = .ok (as, rest)) : rest.length ≤ ts.length := by
  fun_induction readAlternatives ts generalizing as rest with
  | case1 => cases h
  | case2 ts a ha =>
    cases h
    exact Nat.zero_le _
  | case3 => cases h
  | case4 ts a left more left' hr ha ih =>
    cases h
    have hl := length_readAlternative ha
    have hi := ih hr
    simp only [List.length_cons] at hl
    omega
  | case5 ts a token left ha hb =>
    cases h
    exact length_readAlternative ha

/-- Reads one definition.  Its name may be any token but a delimiter or a bar, a
priority token among them. -/
def readDefinition : List String → Except GrammarError (Definition × List String)
  | [] => .error .unexpectedEnd
  | name :: rest =>
      if name = delimiter ∨ name = bar then .error (.malformed .nameMissing)
      else
        match rest with
        | [] => .error .unexpectedEnd
        | second :: rest =>
            if second = delimiter then
              match readAlternatives rest with
              | .error e => .error e
              | .ok (alternatives, left) => .ok (⟨name, alternatives⟩, left)
            else .error (.malformed .delimiterMissing)

/-- A definition uses up its name at least. -/
theorem length_readDefinition {ts rest : List String} {d : Definition}
    (h : readDefinition ts = .ok (d, rest)) : rest.length < ts.length := by
  unfold readDefinition at h
  split at h
  · cases h
  · split at h
    · cases h
    · split at h
      · cases h
      · split at h
        · split at h
          · cases h
          · rename_i hr
            cases h
            have hl := length_readAlternatives hr
            simp only [List.length_cons]
            omega
        · cases h

/-- Reads definitions until no token is left. -/
def readDefinitions (ts : List String) : Except GrammarError (List Definition) :=
  if ts = [] then .ok []
  else
    match _h : readDefinition ts with
    | .error e => .error e
    | .ok (d, rest) =>
        match readDefinitions rest with
        | .error e => .error e
        | .ok more => .ok (d :: more)
termination_by ts.length
decreasing_by exact length_readDefinition ‹_›

/-- The definitions of a grammar text. -/
def read (text : String) : Except GrammarError (List Definition) := readDefinitions (tokens text)

end Bnf
end ShiftReduce
