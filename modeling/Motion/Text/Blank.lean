/-!
Blank characters. The class holds the separators of Unicode, the line and paragraph separators and
the control characters that break or separate text. Trimming and removal of blanks work on it.
-/

set_option autoImplicit false
set_option relaxedAutoImplicit false

namespace Motion.Text

/-- The ranges of code points that count as blank. -/
def blankRanges : List (Nat × Nat) :=
  [(0x09, 0x0D), (0x1C, 0x20), (0x85, 0x85), (0xA0, 0xA0), (0x1680, 0x1680), (0x2000, 0x200A),
    (0x2028, 0x2029), (0x202F, 0x202F), (0x205F, 0x205F), (0x3000, 0x3000)]

/-- Whether a code point lies in one of the ranges. -/
def inRanges (ranges : List (Nat × Nat)) (c : Char) : Bool :=
  ranges.any fun range => range.1 ≤ c.toNat && c.toNat ≤ range.2

def isBlank (c : Char) : Bool :=
  inRanges blankRanges c

/-- Whether a blank is white space: all but the four separators of records and fields are. -/
def isWhiteSpace (c : Char) : Bool :=
  isBlank c && !(0x1C ≤ c.toNat && c.toNat ≤ 0x1F)

/-- The text without its blanks. -/
def removeBlanks (s : List Char) : List Char :=
  s.filter fun c => !isBlank c

/-- The text without characters of a class at its two ends. -/
def trimBy (p : Char → Bool) (s : List Char) : List Char :=
  ((s.dropWhile p).reverse.dropWhile p).reverse

/-- The text without blanks at its two ends. -/
def trim (s : List Char) : List Char :=
  trimBy isBlank s

end Motion.Text
