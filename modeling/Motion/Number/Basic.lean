import Motion.Number.Binary64

/-!
Numbers of a document: integers of any size and binary64 numbers, which stay apart. Integers are
added, subtracted and multiplied exactly; as soon as a binary64 number takes part the integer is
first rounded to binary64, which fails for one beyond its range. Comparison is exact by value.
-/

set_option autoImplicit false
set_option relaxedAutoImplicit false

namespace Motion

/-- A number as a document writes it: with no point an integer, else a binary64 number. -/
inductive Number where
  | int (value : Int)
  | float (value : Binary64)
deriving DecidableEq, Repr, Inhabited

namespace Number

instance : OfNat Number 0 := ⟨.int 0⟩
instance : OfNat Number 1 := ⟨.int 1⟩

/-- The number as binary64; `none` for an integer beyond the range. -/
def toBinary64? : Number → Option Binary64
  | .int i => Binary64.ofInt? i
  | .float x => some x

def isNaN : Number → Bool
  | .int _ => false
  | .float x => x.isNaN

/-- The rational value of a number that has one. -/
def toRat? : Number → Option Rat
  | .int i => some i
  | .float x => if x.isFinite then some x.toRat else none

/-- The order by value of two rationals. -/
def compareRat (p q : Rat) : Ordering :=
  if p < q then .lt else if q < p then .gt else .eq

/-- The order by value. NaN has no place in it, the infinities lie outside all other numbers. -/
def compare? (x y : Number) : Option Ordering :=
  match x.toRat?, y.toRat? with
  | some p, some q => some (compareRat p q)
  | none, some _ =>
    match x with
    | .float (.infinite negative) => some (if negative then .lt else .gt)
    | _ => none
  | some _, none =>
    match y with
    | .float (.infinite negative) => some (if negative then .gt else .lt)
    | _ => none
  | none, none =>
    match x, y with
    | .float (.infinite s), .float (.infinite t) =>
      some (if s = t then .eq else if s then .lt else .gt)
    | _, _ => none

/-- Equality by value, across integers and binary64 numbers. -/
def same (x y : Number) : Bool :=
  x.compare? y == some .eq

def lt (x y : Number) : Bool :=
  x.compare? y == some .lt

/-- The first number unless the second is smaller. -/
def min (x y : Number) : Number :=
  if y.lt x then y else x

/-- The first number unless the second is greater. -/
def max (x y : Number) : Number :=
  if x.lt y then y else x

def neg : Number → Number
  | .int i => .int (-i)
  | .float x => .float x.neg

def abs : Number → Number
  | .int i => .int i.natAbs
  | .float x => .float x.abs

/-- An operation that is exact on integers and else works on binary64 numbers. -/
def arith (exact : Int → Int → Int) (rounded : Binary64 → Binary64 → Binary64)
    (x y : Number) : Option Number :=
  match x, y with
  | .int i, .int j => some (.int (exact i j))
  | _, _ =>
    match x.toBinary64?, y.toBinary64? with
    | some a, some b => some (.float (rounded a b))
    | _, _ => none

/-- The sum; `none` if an integer beyond the binary64 range meets a binary64 number. -/
def add : Number → Number → Option Number :=
  arith (· + ·) Binary64.add

/-- The difference; `none` as for `add`. -/
def sub : Number → Number → Option Number :=
  arith (· - ·) Binary64.sub

/-- The product; `none` as for `add`. -/
def mul : Number → Number → Option Number :=
  arith (· * ·) Binary64.mul

/-- The quotient as a binary64 number. The quotient of two integers is rounded once, from its exact
value; `none` if it or an integer to be converted is beyond the range. -/
def div (x y : Number) : Option Number :=
  match x, y with
  | .int i, .int j =>
    match Binary64.ofRatio (decide (i < 0) != decide (j < 0)) (mkRat i 1 / mkRat j 1) with
    | .finite negative exponent fraction => some (.float (.finite negative exponent fraction))
    | _ => none
  | _, _ =>
    match x.toBinary64?, y.toBinary64? with
    | some a, some b => some (.float (a.div b))
    | _, _ => none

/-- A binary64 number with a whole value below `10 ^ 21` in magnitude is the same as the integer;
every other number is left as it is. -/
def normalize : Number → Number
  | .int i => .int i
  | .float x =>
    match x.toInt? with
    | some i => if i.natAbs < Nat.pow 10 21 then .int i else .float x
    | none => .float x

/-- The integer that a number equals, if there is one. -/
def toInt? : Number → Option Int
  | .int i => some i
  | .float x => x.toInt?

end Number

end Motion
