/-
Lines and words.

Both come from one function: `pieces p` cuts a text at every character that
satisfies `p` and keeps what lies between, empty pieces included.  Lines are the
pieces at line feeds, and words are the pieces at blanks that are not empty.
-/
import ShiftReduce.Text.Blank

namespace ShiftReduce
namespace Text

/-- What lies between the characters that satisfy `cut`.  There is always one
piece more than there are such characters. -/
def pieces (cut : Char → Bool) : List Char → List (List Char)
  | [] => [[]]
  | c :: rest =>
      if cut c then [] :: pieces cut rest
      else
        match pieces cut rest with
        | [] => [[c]]
        | piece :: more => (c :: piece) :: more

def lines (text : List Char) : List (List Char) := pieces (· == '\n') text

def words (line : List Char) : List (List Char) :=
  (pieces isBlank line).filter fun piece => !piece.isEmpty

end Text
end ShiftReduce
