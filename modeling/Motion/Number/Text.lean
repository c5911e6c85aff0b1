import Motion.Number.Basic
import Motion.Number.Layout
import Motion.Number.Reading

/-!
The texts of a number. In an expression a whole number is written as an integer wherever
`Number.normalize` makes it one, and else in the layout of expressions; in a message an integer and
a binary64 number look different. An integer with more digits than the limit is not to be written
(`Number.isWritable`).
-/

set_option autoImplicit false
set_option relaxedAutoImplicit false

namespace Motion.Number

/-- The decimal digits of an integer, with a minus sign in front if it is negative. -/
def intText : Int → List Char
  | .ofNat n => Decimal.digitsOf n
  | .negSucc n => '-' :: Decimal.digitsOf (n + 1)

/-- Whether the number may be written: it is no integer with too many digits. -/
def isWritable : Number → Bool
  | .int i => i.natAbs < Nat.pow 10 Numeral.digitLimit
  | .float _ => true

/-- The characters of the number in an expression. -/
def textChars (x : Number) : List Char :=
  match x.normalize with
  | .int i => intText i
  | .float y => Layout.expression.render y

/-- The number as an expression writes it. -/
def text (x : Number) : String :=
  String.ofList x.textChars

/-- The characters of the number in a given layout, with integers as they are. -/
def laidOut (layout : Layout) : Number → List Char
  | .int i => intText i
  | .float x => layout.render x

/-- The number as a message writes it. -/
def shown (x : Number) : String :=
  String.ofList (x.laidOut .message)

end Motion.Number
