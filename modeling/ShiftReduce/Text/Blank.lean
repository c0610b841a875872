/-
Blank characters.

The class is the Unicode property White_Space, which has 25 members and is wider
than the ASCII class that `Char.isWhitespace` tests.  The members are listed as
ranges of code points.
-/
namespace ShiftReduce
namespace Text

/-- The code points of White_Space as closed ranges, in ascending order. -/
def blankRanges : List (Nat × Nat) :=
  [(0x9, 0xD), (0x20, 0x20), (0x85, 0x85), (0xA0, 0xA0), (0x1680, 0x1680), (0x2000, 0x200A),
   (0x2028, 0x2029), (0x202F, 0x202F), (0x205F, 0x205F), (0x3000, 0x3000)]

def isBlank (c : Char) : Bool :=
  blankRanges.any fun range => range.1 ≤ c.toNat && c.toNat ≤ range.2

end Text
end ShiftReduce
