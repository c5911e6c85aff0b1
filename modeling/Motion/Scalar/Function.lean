import Motion.Scalar.Basic

/-!
Functions applied to scalars. On numbers a function is computed at once; with an expression among
its arguments it becomes a call in the expression text, and the slope is lost.
-/

set_option autoImplicit false
set_option relaxedAutoImplicit false

namespace Motion

/-- The functions of numbers. -/
inductive Function where
  | sqrt
  | min
  | max
  | abs
  | floor
deriving DecidableEq, Repr

namespace Function

/-- The greatest integer that is not above a number. NaN has none, an infinity none either. -/
def floorOf : Number → Except Fault Number
  | .int i => .ok (.int i)
  | .float .nan => .error .badValue
  | .float (.infinite _) => .error .outOfRange
  | .float x => .ok (.int x.toRat.floor)

/-- The square root of a number that is not negative. -/
def sqrtOf (x : Number) : Except Fault Number :=
  match x.toBinary64? with
  | none => .error .outOfRange
  | some value =>
    if (Number.float value).lt 0 then .error .badValue else .ok (.float value.sqrt)

/-- The function at a number and any further arguments. The least and the greatest of a single
number is not defined, and the other functions take one argument. -/
def apply : Function → Number → List Number → Except Fault Number
  | sqrt, x, [] => sqrtOf x
  | floor, x, [] => floorOf x
  | abs, x, [] => .ok x.abs
  | min, x, y :: rest => .ok (rest.foldl Number.min (x.min y))
  | max, x, y :: rest => .ok (rest.foldl Number.max (x.max y))
  | _, _, _ => .error .wrongType

end Function

namespace Scalar

/-- A function of a number and further ones, called `name` in expressions, at a scalar and further
arguments. -/
def applyWith (x : Scalar) (name : String) (f : Number → List Number → Except Fault Number)
    (arguments : List Operand) : Except Fault Scalar :=
  match x, arguments.mapM Operand.number? with
  | literal value, some numbers => (f value numbers).map literal
  | x, _ => do
    let first ← x.text?
    let more ← arguments.mapM fun argument => do (← argument.toScalar).text?
    return expr (name ++ "(" ++ ",".intercalate (first :: more) ++ ")") none

/-- The function `f`, called `name` in expressions, at a scalar and further arguments. -/
def apply (x : Scalar) (name : String) (f : Function) (arguments : List Operand) :
    Except Fault Scalar :=
  x.applyWith name f.apply arguments

end Scalar

end Motion
