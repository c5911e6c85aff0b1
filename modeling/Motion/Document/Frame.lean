import Motion.Scalar.Basic
import Motion.Scene.Depth

/-!
The variable `frame` of expressions. It maps the elapsed milliseconds onto the looping range of
frames of an animation.
-/

set_option autoImplicit false
set_option relaxedAutoImplicit false

namespace Motion

/-- The number that a value counts as in arithmetic: itself, or 0 and 1 for truth values. -/
def Data.quantity : Data → Except Fault Number
  | .num n => .ok n
  | .bool b => .ok (.int (if b then 1 else 0))
  | _ => .error .wrongType

/-- A value as expressions write numbers. -/
def Data.numberText : Data → Except Fault String
  | .num n => if n.isWritable then .ok n.text else .error .badValue
  | other => .error (other.refusedAs .notFormattable)

/-- The expression for the frame at a moment, over the frames from the start up to the end. -/
def frameExpression (start finish rate : Data) : Except Fault String := do
  let perMillisecond ← inRange ((← rate.quantity).div (.int 1000))
  let length ← inRange ((← finish.quantity).sub (← start.quantity))
  let looped :=
    "(elapsedTime*" ++ perMillisecond.text ++ ")%" ++ (← (Data.num length).numberText)
  if (← start.quantity).same 0 then return looped
  return (← start.numberText) ++ "+(" ++ looped ++ ")"

/-- A group that gives its items the variable `frame`. -/
def bindFrame (items start finish rate : Data) : Except Fault Data := do
  let expression ← frameExpression start finish rate
  return .obj [
    (typeKey, .str groupType),
    ("bind", .list [.obj [("name", .str "frame"), ("value", .str (Scalar.binding expression))]]),
    (itemsKey, items)]

end Motion
