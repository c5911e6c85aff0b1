import Motion.Number.Binary64

/-!
The shortest decimal that reads back. For a positive rational and a test `reads` of which decimals
count as its text, `Decimal.shortest` looks at the grids of 1, 2, 3, … significant digits. On each
grid only the two neighbours of the number matter: a point of the grid that is farther away reads
back only if a neighbour does. The first grid with a neighbour that reads back wins, and of two such
neighbours the nearer one, or the even one where both are equally near. The search ends at the
latest where the number itself lies on the grid.
-/

set_option autoImplicit false
set_option relaxedAutoImplicit false

namespace Motion

/-- The decimal `coefficient * 10 ^ exponent`. -/
structure Decimal where
  coefficient : Nat
  exponent : Int
deriving DecidableEq, Repr, Inhabited

namespace Decimal

/-- The power of ten with an integer exponent. -/
def powerOfTen : Int → Rat
  | .ofNat n => Nat.pow 10 n
  | .negSucc n => mkRat 1 (Nat.pow 10 (n + 1))

def toRat (x : Decimal) : Rat :=
  x.coefficient * powerOfTen x.exponent

/-- The decimal digits of a natural number, the most significant first. -/
def digitsOf (n : Nat) : List Char :=
  Nat.toDigits 10 n

def digitCount (n : Nat) : Nat :=
  (digitsOf n).length

/-- The least `p` with `n / d < 10 ^ p`: how many digits stand before the point. -/
def pointOf (n d : Nat) : Int :=
  let p : Int := digitCount n - digitCount d
  if decide (mkRat n d < powerOfTen p) then p else p + 1

/-- The same decimal without zeros at the end of its coefficient. -/
def stripZeros (fuel : Nat) (x : Decimal) : Decimal :=
  match fuel with
  | 0 => x
  | fuel + 1 =>
    if x.coefficient ≠ 0 ∧ x.coefficient % 10 = 0 then
      stripZeros fuel ⟨x.coefficient / 10, x.exponent + 1⟩
    else x

/-- The neighbour of `q` on the grid `10 ^ exponent` that reads back. If both do it is the nearer
one, and of two equally near ones the even one. -/
def onGrid? (q : Rat) (reads : Decimal → Bool) (exponent : Int) : Option Decimal :=
  let scaled := q / powerOfTen exponent
  let floor := scaled.floor.toNat
  let below : Decimal := ⟨floor, exponent⟩
  let above : Decimal := ⟨floor + 1, exponent⟩
  match reads below, reads above with
  | true, true =>
    let excess := scaled - floor
    let half := mkRat 1 2
    if excess < half ∨ excess = half ∧ floor % 2 = 0 then some below else some above
  | true, false => some below
  | false, true => some above
  | false, false => none

/-- The search over the grids of `count`, `count + 1`, … digits. -/
def search (q : Rat) (reads : Decimal → Bool) (point : Int) : Nat → Nat → Option Decimal
  | _, 0 => none
  | count, fuel + 1 =>
    match onGrid? q reads (point - count) with
    | some x => some x
    | none => search q reads point (count + 1) fuel

/-- The shortest decimal that reads back as the positive number `q`, whose denominator is a power
of two. Such a number lies on the grid of `log2 q.den` places, where the search ends at the
latest. -/
def shortest (q : Rat) (reads : Decimal → Bool) : Decimal :=
  let point := pointOf q.num.natAbs q.den
  let places := Nat.log2 q.den
  let fuel := (point + places).toNat
  match search q reads point 1 fuel with
  | some x => stripZeros (digitCount x.coefficient) x
  | none => ⟨(q * powerOfTen places).floor.toNat, -places⟩

end Decimal

/-- The shortest decimal nearest to a finite magnitude; zero is `0`. -/
def Binary64.shortest (x : Binary64) : Decimal :=
  let magnitude := x.abs
  if magnitude.toRat = 0 then ⟨0, 0⟩
  else Decimal.shortest magnitude.toRat fun d => decide (Binary64.ofRat d.toRat = magnitude)

end Motion
