import Motion.Number.Shortest

/-!
How a binary64 number is laid out as text once its shortest decimal is known. The digits and the
place of the point are the same for every layout; a `Layout` decides between positional and exponent
notation and how the special numbers are named. Numbers with a fixed count of places after the point
are rounded from their exact value instead (`fixedPlaces`).
-/

set_option autoImplicit false
set_option relaxedAutoImplicit false

namespace Motion

/-- The decisions of a number format. -/
structure Layout where
  /-- The least place of the point that is written positionally. -/
  leastPoint : Int
  /-- The greatest place of the point that is written positionally. -/
  greatestPoint : Int
  /-- What follows the digits of a whole number in positional notation. -/
  wholeSuffix : List Char
  /-- The least number of digits in an exponent. -/
  exponentWidth : Nat
  /-- The name of the number that is not one. -/
  nanName : List Char
  /-- The name of the positive infinity. -/
  infinityName : List Char

namespace Layout

/-- The layout of numbers in expressions: positional from `1e-6` up to below `1e21`. -/
def expression : Layout where
  leastPoint := -5
  greatestPoint := 21
  wholeSuffix := []
  exponentWidth := 1
  nanName := "NaN".toList
  infinityName := "Infinity".toList

/-- The layout of numbers in messages: positional from `1e-4` up to below `1e16`, with a digit after
the point in every positional number. -/
def message : Layout where
  leastPoint := -3
  greatestPoint := 16
  wholeSuffix := ".0".toList
  exponentWidth := 2
  nanName := "nan".toList
  infinityName := "inf".toList

/-- The layout of numbers in a written document, which is that of messages but for the names of
the special numbers. -/
def document : Layout :=
  { message with nanName := "NaN".toList, infinityName := "Infinity".toList }

/-- A natural number with zeros in front up to a width. -/
def padded (width n : Nat) : List Char :=
  let digits := Decimal.digitsOf n
  List.replicate (width - digits.length) '0' ++ digits

/-- The magnitude `0.digits * 10 ^ point` in a layout. -/
def magnitude (layout : Layout) (digits : List Char) (point : Int) : List Char :=
  let count : Int := digits.length
  if layout.leastPoint ≤ point ∧ point ≤ layout.greatestPoint then
    if count ≤ point then
      digits ++ List.replicate (point - count).toNat '0' ++ layout.wholeSuffix
    else if 0 < point then
      digits.take point.toNat ++ '.' :: digits.drop point.toNat
    else
      '0' :: '.' :: List.replicate (-point).toNat '0' ++ digits
  else
    let mantissa :=
      match digits with
      | [] => []
      | [d] => [d]
      | d :: rest => d :: '.' :: rest
    let exponent := point - 1
    mantissa ++ 'e' :: (if 0 ≤ exponent then '+' else '-')
      :: padded layout.exponentWidth exponent.natAbs

/-- The text of a binary64 number in a layout. -/
def render (layout : Layout) (x : Binary64) : List Char :=
  let body :=
    match x with
    | .nan => layout.nanName
    | .infinite _ => layout.infinityName
    | .finite .. =>
      let decimal := x.shortest
      let digits := Decimal.digitsOf decimal.coefficient
      layout.magnitude digits (decimal.exponent + digits.length)
  if x.isNegative then '-' :: body else body

/-- The exact value rounded to `places` digits after the point, a tie to the even last digit. The
sign stays also where all digits are zero. -/
def fixedPlaces (places : Nat) (x : Binary64) : List Char :=
  let body :=
    match x with
    | .nan => message.nanName
    | .infinite _ => message.infinityName
    | .finite .. =>
      let magnitude := x.abs.toRat
      let scaled := roundHalfEven (magnitude.num.natAbs * Nat.pow 10 places) magnitude.den
      let digits := padded (places + 1) scaled
      let whole := digits.take (digits.length - places)
      let fraction := digits.drop (digits.length - places)
      if places = 0 then whole else whole ++ '.' :: fraction
  if x.isNegative then '-' :: body else body

end Layout

end Motion
