/-!
Binary64 numbers as exact values. A finite number is given by its sign, its exponent field and its
fraction field; its magnitude is a whole number of units, one unit being `2 ^ (-1074)`, the least
positive binary64 number. So every finite number has a rational value (`toRat`), and every number
but the two zeros has exactly one representation.

An operation is computed exactly on the rational values and then rounded once, to the nearest
binary64 number and on a tie to the one with the even significand (`ofRatio`, `ofRat`). The rules
for signed zeros, infinities and NaN stand beside each operation.
-/

set_option autoImplicit false
set_option relaxedAutoImplicit false

namespace Motion

/-- How many values the fraction field has: `2 ^ 52`. -/
abbrev fractionCount : Nat := 4503599627370496

/-- A binary64 number. The exponent field 2047 is left to the infinities and NaN. -/
inductive Binary64 where
  | finite (negative : Bool) (exponent : Fin 2047) (fraction : Fin fractionCount)
  | infinite (negative : Bool)
  | nan
deriving DecidableEq, Repr, Inhabited

/-- The whole number nearest to `n / d`; of two equally near ones, the even one. -/
def roundHalfEven (n d : Nat) : Nat :=
  let quotient := n / d
  let twice := 2 * (n % d)
  if twice < d then quotient
  else if d < twice then quotient + 1
  else if quotient % 2 = 0 then quotient else quotient + 1

/-- The whole part of the square root, by binary digits in pairs. -/
def squareRoot (n : Nat) : Nat :=
  if h : n = 0 then 0
  else
    let root := 2 * squareRoot (n / 4)
    if (root + 1) * (root + 1) ≤ n then root + 1 else root
termination_by n
decreasing_by omega

namespace Binary64

/-- How many units make up one: `2 ^ 1074`. -/
def unitsPerOne : Nat := Nat.pow 2 1074

/-- The magnitude of a finite number in units of `2 ^ (-1074)`. -/
def units (exponent : Fin 2047) (fraction : Fin fractionCount) : Nat :=
  if exponent.val = 0 then fraction.val
  else (fractionCount + fraction.val) * Nat.pow 2 (exponent.val - 1)

/-- The rational value of a finite number. An infinity and NaN have none and give 0. -/
def toRat : Binary64 → Rat
  | .finite negative exponent fraction =>
    let magnitude : Rat := mkRat (units exponent fraction) unitsPerOne
    if negative then -magnitude else magnitude
  | .infinite _ => 0
  | .nan => 0

/-- The binary64 number nearest to `n / d` units with the given sign. The fields of the result are
those of the word `shift * 2 ^ 52 + significand`, which also carries a significand that rounds up to
`2 ^ 53` into the exponent field. -/
def ofUnits (negative : Bool) (n d : Nat) : Binary64 :=
  let shift := Nat.log2 (n / d) - 52
  let word := shift * fractionCount + roundHalfEven n (d * Nat.pow 2 shift)
  if h : word / fractionCount < 2047 then
    .finite negative ⟨word / fractionCount, h⟩
      ⟨word % fractionCount, Nat.mod_lt word (Nat.zero_lt_succ _)⟩
  else .infinite negative

/-- The binary64 number nearest to the magnitude of `q`, with the given sign. -/
def ofRatio (negative : Bool) (q : Rat) : Binary64 :=
  ofUnits negative (q.num.natAbs * unitsPerOne) q.den

/-- The binary64 number nearest to `q`. -/
def ofRat (q : Rat) : Binary64 :=
  ofRatio (decide (q < 0)) q

/-- Zero with the given sign. -/
def zero (negative : Bool) : Binary64 :=
  .finite negative 0 0

def isNaN : Binary64 → Bool
  | .nan => true
  | _ => false

def isFinite : Binary64 → Bool
  | .finite .. => true
  | _ => false

/-- The sign field; NaN counts as unsigned. -/
def isNegative : Binary64 → Bool
  | .finite negative _ _ => negative
  | .infinite negative => negative
  | .nan => false

/-- The whole number that a finite number is, if it is one. -/
def toInt? (x : Binary64) : Option Int :=
  if x.isFinite && x.toRat.den == 1 then some x.toRat.num else none

/-- The binary64 number nearest to an integer, unless that is an infinity. -/
def ofInt? (i : Int) : Option Binary64 :=
  match ofRat i with
  | .finite negative exponent fraction => some (.finite negative exponent fraction)
  | _ => none

def neg : Binary64 → Binary64
  | .finite negative exponent fraction => .finite (!negative) exponent fraction
  | .infinite negative => .infinite (!negative)
  | .nan => .nan

def abs : Binary64 → Binary64
  | .finite _ exponent fraction => .finite false exponent fraction
  | .infinite _ => .infinite false
  | .nan => .nan

/-- Numbers that cancel exactly give the positive zero; only two negative zeros give a negative
one. -/
def add : Binary64 → Binary64 → Binary64
  | .nan, _ => .nan
  | _, .nan => .nan
  | .infinite s, .infinite t => if s = t then .infinite s else .nan
  | .infinite s, _ => .infinite s
  | _, .infinite t => .infinite t
  | x@(.finite s _ _), y@(.finite t _ _) =>
    let sum := x.toRat + y.toRat
    if sum = 0 then zero (s && t) else ofRat sum

def sub (x y : Binary64) : Binary64 :=
  x.add y.neg

/-- The sign of a product is negative if exactly one factor is; infinity times zero is NaN. -/
def mul : Binary64 → Binary64 → Binary64
  | .nan, _ => .nan
  | _, .nan => .nan
  | .infinite s, .infinite t => .infinite (s != t)
  | .infinite s, y@(.finite t _ _) => if y.toRat = 0 then .nan else .infinite (s != t)
  | x@(.finite s _ _), .infinite t => if x.toRat = 0 then .nan else .infinite (s != t)
  | x@(.finite s _ _), y@(.finite t _ _) => ofRatio (s != t) (x.toRat * y.toRat)

/-- A nonzero number over zero is an infinity, zero over zero NaN. -/
def div : Binary64 → Binary64 → Binary64
  | .nan, _ => .nan
  | _, .nan => .nan
  | .infinite _, .infinite _ => .nan
  | .infinite s, .finite t _ _ => .infinite (s != t)
  | .finite s _ _, .infinite t => zero (s != t)
  | x@(.finite s _ _), y@(.finite t _ _) =>
    if y.toRat = 0 then
      if x.toRat = 0 then .nan else .infinite (s != t)
    else ofRatio (s != t) (x.toRat / y.toRat)

/-- The square root of a number that is not negative, correctly rounded. The odd last bit of the
numerator stands for the part that the whole root leaves out. -/
def sqrt : Binary64 → Binary64
  | .finite negative exponent fraction =>
    let square := units exponent fraction * unitsPerOne
    let root := squareRoot square
    ofUnits negative (2 * root + (if root * root = square then 0 else 1)) 2
  | x => x

end Binary64

end Motion
