import Motion.Data.Shown
import Motion.Fault

/-!
Scalars of an animation: a number, or an expression in the variable `frame`. Beside an expression
stands its slope, the change of its value over one frame, as long as that is known; the slope of a
number is 0 and need not be kept.

Arithmetic folds numbers and drops the neutral operands 0 and 1; else it writes both operands into
a parenthesized expression, and their slopes into another one with the same operator. That is the
forward difference for sums and differences only, which is all that orientation along a path needs.
-/

set_option autoImplicit false
set_option relaxedAutoImplicit false

namespace Motion

/-- The fault with which a value is refused. Its cause shows the value, which fails in turn where the
value may not be shown. -/
def Data.refusedAs (value : Data) (cause : String → ArithmeticFault) : Fault :=
  if value.isWritable then .arithmetic (cause value.shown) else .badValue

/-- The change of an expression over one frame. -/
inductive Slope where
  | num (value : Number)
  | expr (text : String)
deriving DecidableEq, Repr

/-- A number or an expression in `frame`, with the slope of the expression if it is known. -/
inductive Scalar where
  | literal (value : Number)
  | expr (text : String) (slope : Option Slope)
deriving DecidableEq, Repr, Inhabited

/-- What may be given where a scalar is expected. -/
inductive Operand where
  | scalar (value : Scalar)
  | data (value : Data)

/-- The operators of expressions. -/
inductive Operator where
  | add
  | sub
  | mul
  | div
deriving DecidableEq, Repr

def Operator.symbol : Operator → String
  | .add => "+"
  | .sub => "-"
  | .mul => "*"
  | .div => "/"

namespace Slope

def text : Slope → String
  | num value => value.text
  | expr text => text

def same : Slope → Slope → Bool
  | num x, num y => x.same y
  | expr s, expr t => s == t
  | _, _ => false

def toData : Slope → Data
  | num value => .num value
  | expr text => .str text

/-- Whether the slope may be written: it is no integer with too many digits. -/
def isWritable : Slope → Bool
  | num value => value.isWritable
  | expr _ => true

/-- Whether a slope given from outside says something: zero and the empty text do not. -/
def isTruthy : Slope → Bool
  | num value => !value.same 0
  | expr text => !text.isEmpty

end Slope

namespace Scalar

instance : OfNat Scalar 0 := ⟨.literal 0⟩
instance : OfNat Scalar 1 := ⟨.literal 1⟩

/-- The number or expression as a message writes it. -/
def bare : Scalar → String
  | literal value => value.shown
  | expr text _ => text

/-- The scalar with its slope as a message shows it. -/
def shown (x : Scalar) : String :=
  let slope :=
    match x with
    | literal _ => "0"
    | expr _ (some (.num value)) => value.shown
    | expr _ (some (.expr text)) => text
    | expr _ none => "<unavailable>"
  "Value<" ++ x.bare ++ " " ++ slope ++ ">"

/-- Whether the scalar may be written: it is no integer with too many digits. -/
def isWritable : Scalar → Bool
  | literal value => value.isWritable
  | expr .. => true

/-- The characters of the expression text: the number as expressions write it, or the expression
itself. They are the text of a scalar that may be written only (`text?`). -/
def text : Scalar → String
  | literal value => value.text
  | expr text _ => text

/-- The expression text. A number with too many digits has none. -/
def text? (x : Scalar) : Except Fault String := do
  usable x.isWritable
  return x.text

def isNumber : Scalar → Bool
  | literal _ => true
  | expr .. => false

/-- The slope, if it is known. -/
def slope? : Scalar → Option Slope
  | literal _ => some (.num 0)
  | expr _ slope => slope

def hasSlope (x : Scalar) : Bool :=
  x.slope?.isSome

/-- The slope, or the fault that it is not known. -/
def slope (x : Scalar) : Except Fault Slope :=
  match x.slope? with
  | some s => .ok s
  | none => .error (.noDerivative x.bare)

/-- The fault with which the scalar is refused (`Data.refusedAs`). -/
def refusedAs (x : Scalar) (cause : String → ArithmeticFault) : Fault :=
  if x.isWritable && x.slope?.all Slope.isWritable then .arithmetic (cause x.shown) else .badValue

/-- The number, or the fault that the scalar is an expression. -/
def number (x : Scalar) : Except Fault Number :=
  match x with
  | literal value => .ok value
  | expr .. => .error (x.refusedAs .notLiteral)

/-- An expression wrapped as a data binding. -/
def binding (text : String) : String :=
  "$\x7b" ++ text ++ "\x7d"

/-- The scalar in a document: a number with whole values as integers, or a data binding. -/
def embed : Scalar → Data
  | literal value => .num value.normalize
  | expr text _ => .str (binding text)

/-- The slope in a document. -/
def embedSlope (x : Scalar) : Except Fault Data :=
  match x, x.slope? with
  | literal _, _ => .ok (.num 0)
  | expr .., some (.expr text) => .ok (.str (binding text))
  | expr .., some (.num _) => .error .wrongType
  | expr .., none => .error (.noDerivative x.bare)

/-- Equality by value and slope; an expression never equals a number. -/
def same : Scalar → Scalar → Bool
  | literal x, literal y => x.same y
  | expr s none, expr t none => s == t
  | expr s (some p), expr t (some q) => s == t && p.same q
  | _, _ => false

/-- Whether the scalar is the given number. -/
def isLiteral (x : Scalar) (n : Number) : Bool :=
  match x with
  | literal value => value.same n
  | expr .. => false

/-- The scalar that a value of a document stands for: a number, or a text taken as an expression
with the given slope. -/
def ofData (value : Data) (slope : Option Slope) : Except Fault Scalar :=
  match value with
  | .num n => .ok (literal n)
  | .str s => .ok (expr s (slope.filter Slope.isTruthy))
  | other => .error (other.refusedAs .notScalar)

def negate : Scalar → Scalar
  | literal value => literal value.neg
  | expr text none => expr ("(-" ++ text ++ ")") none
  | expr text (some slope) =>
    expr ("(-" ++ text ++ ")") (some (.expr ("(-" ++ slope.text ++ ")")))

/-- Two texts in parentheses with an operator between them. -/
def infixText (left : String) (op : Operator) (right : String) : String :=
  "(" ++ left ++ op.symbol ++ right ++ ")"

/-- The expression for an operation. Subtracting a negative number is written as adding its
magnitude; the operator of the slopes changes along with it. -/
def combine (x : Scalar) (op : Operator) (y : Scalar) : Scalar :=
  let (op, right) :=
    match op, y with
    | .sub, literal value => if value.lt 0 then (.add, value.abs.text) else (.sub, value.text)
    | op, y => (op, y.text)
  expr (infixText x.text op right)
    (match x.slope?, y.slope? with
      | some p, some q => some (.expr (infixText p.text op q.text))
      | _, _ => none)

/-- The expression for an operation on scalars that may be written. -/
def combine? (x : Scalar) (op : Operator) (y : Scalar) : Except Fault Scalar := do
  usable (x.isWritable && y.isWritable)
  return x.combine op y

def multiply (x y : Scalar) : Except Fault Scalar :=
  if x.isLiteral 0 || y.isLiteral 0 then .ok 0
  else if x.isLiteral 1 then .ok y
  else if y.isLiteral 1 then .ok x
  else
    match x, y with
    | literal a, literal b => inRange ((a.mul b).map literal)
    | x, y => x.combine? .mul y

def divide (x y : Scalar) : Except Fault Scalar :=
  if y.isLiteral 0 then
    if x.isWritable then .error (.arithmetic (.divisionByZero x.bare)) else .error .badValue
  else if x.isLiteral 0 then .ok 0
  else if y.isLiteral 1 then .ok x
  else
    match x, y with
    | literal a, literal b => inRange ((a.div b).map literal)
    | x, y => x.combine? .div y

def add (x y : Scalar) : Except Fault Scalar :=
  if x.isLiteral 0 then .ok y
  else if y.isLiteral 0 then .ok x
  else
    match x, y with
    | literal a, literal b => inRange ((a.add b).map literal)
    | x, y => x.combine? .add y

def subtract (x y : Scalar) : Except Fault Scalar :=
  if x.isLiteral 0 then .ok y.negate
  else if y.isLiteral 0 then .ok x
  else
    match x, y with
    | literal a, literal b => inRange ((a.sub b).map literal)
    | x, y => x.combine? .sub y

end Scalar

namespace Operand

def shown : Operand → String
  | scalar value => value.shown
  | data value => value.shown

/-- The scalar that an operand is: a scalar or a number. -/
def toScalar : Operand → Except Fault Scalar
  | scalar value => .ok value
  | data (.num n) => .ok (.literal n)
  | data other => .error (other.refusedAs .badOperand)

/-- The number that an operand is, if it is one. -/
def number? : Operand → Option Number
  | scalar (.literal n) => some n
  | data (.num n) => some n
  | _ => none

/-- The fault with which the operand is refused (`Data.refusedAs`). -/
def refusedAs (x : Operand) (cause : String → ArithmeticFault) : Fault :=
  match x with
  | scalar value => value.refusedAs cause
  | data value => value.refusedAs cause

/-- The number that an operand is, or the fault that it is none. -/
def number (x : Operand) : Except Fault Number :=
  match x.number? with
  | some n => .ok n
  | none => .error (x.refusedAs .badNumber)

end Operand

end Motion
