import Motion.Data.Basic
import Motion.Scalar.Basic
import Mathlib.Data.Rat.Defs
import Mathlib.Tactic.Ring

/-!
Arithmetic expressions and their values. Names, calls and values that are no expressions may stand
for any rational numbers; a division by zero gives zero.
-/

set_option autoImplicit false
set_option relaxedAutoImplicit false

namespace Motion

/-- The operation of an operator on rational numbers. -/
def Operator.apply : Operator → ℚ → ℚ → ℚ
  | .add, x, y => x + y
  | .sub, x, y => x - y
  | .mul, x, y => x * y
  | .div, x, y => x / y

/-- Sums and differences, as opposed to products and quotients. -/
def Operator.isAdditive : Operator → Bool
  | .add => true
  | .sub => true
  | .mul => false
  | .div => false

/-- An arithmetic expression. A value of a document that is taken as it is counts as one. -/
inductive Expression where
  | number (value : ℚ)
  | name (word : List Char)
  | call (function : List Char) (argument : Expression)
  | neg (operand : Expression)
  | binary (op : Operator) (left right : Expression)
  | special (value : Data)

/-- What names, calls and special values stand for. A call may stand for any number that its
function and its argument determine. -/
structure Assignment where
  name : List Char → ℚ
  call : List Char → Expression → ℚ
  special : Data → ℚ

/-- The value of an expression. -/
def Expression.eval (env : Assignment) : Expression → ℚ
  | number value => value
  | name word => env.name word
  | call function argument => env.call function argument
  | neg operand => -operand.eval env
  | binary op left right => op.apply (left.eval env) (right.eval env)
  | special value => env.special value

end Motion
