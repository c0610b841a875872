/-
The tokens of a grammar text.

A token is a word.  A word that starts with `#` opens a comment, which runs to the
end of its line; a `#` inside a word is an ordinary character.  Three kinds of
token have a meaning of their own: the delimiter, the bar, and `@` followed by at
least one character.  Every other token is a name, possibly with a binding behind
its last colon.
-/
import ShiftReduce.Text.Word
import ShiftReduce.Bnf.Basic

namespace ShiftReduce
namespace Bnf

/-! ## Comments -/

/-- A line up to its comment.  `fresh` says whether a word would start here. -/
def cutComment (fresh : Bool) : List Char → List Char
  | [] => []
  | c :: rest => if fresh && c == '#' then [] else c :: cutComment (Text.isBlank c) rest

/-- A line without its comment. -/
def stripComment (line : List Char) : List Char := cutComment true line

/-- All tokens of a text, line by line. -/
def tokens (text : String) : List String :=
  (Text.lines text.toList).flatMap fun line => (Text.words (stripComment line)).map String.ofList

/-! ## Kinds of tokens -/

/-- Stands between the name of a definition and its alternatives. -/
def delimiter : String := "::="

/-- Stands between two alternatives. -/
def bar : String := "|"

/-- What follows the `@` of a priority token; `none` for all other tokens, a lone
`@` among them. -/
def priorityText? (token : String) : Option (List Char) :=
  match token.toList with
  | '@' :: c :: rest => some (c :: rest)
  | _ => none

/-! ## Integers -/

def digit? (c : Char) : Option Nat := if c.isDigit then some (c.toNat - '0'.toNat) else none

/-- The value of a nonempty row of decimal digits, leading zeros allowed. -/
def natural? : List Char → Option Nat
  | [] => none
  | digits => (digits.mapM digit?).map fun values => values.foldl (fun n d => 10 * n + d) 0

/-- A 32-bit integer: at most one sign and at least one digit. -/
def integer? (text : List Char) : Option Int :=
  let value : Option Int := match text with
    | '+' :: digits => (natural? digits).map Int.ofNat
    | '-' :: digits => (natural? digits).map fun n => -Int.ofNat n
    | digits => (natural? digits).map Int.ofNat
  value.filter fun n => decide (-0x80000000 ≤ n ∧ n < 0x80000000)

/-! ## Names and bindings -/

/-- What is before and after the last colon. -/
def splitLastColon : List Char → Option (List Char × List Char)
  | [] => none
  | c :: rest =>
      match splitLastColon rest with
      | some (before, after) => some (c :: before, after)
      | none => if c == ':' then some ([], rest) else none

/-- A name token as an occurrence.  The part after the last colon is a binding
when there is something on both sides of that colon; otherwise the colon belongs
to the name. -/
def Occurrence.ofToken (token : String) : Occurrence :=
  match splitLastColon token.toList with
  | some (before, after) =>
      if before.isEmpty || after.isEmpty then ⟨token, none⟩
      else ⟨String.ofList before, some (String.ofList after)⟩
  | none => ⟨token, none⟩

end Bnf
end ShiftReduce
