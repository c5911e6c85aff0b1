import Motion.Scalar.Basic

/-!
Commands of path data: a letter and its parameters, which are numbers or data bindings. Parameters
are separated by commas; the six of a curve are written as three points with spaces between them.
-/

set_option autoImplicit false
set_option relaxedAutoImplicit false

namespace Motion

/-- A command of path data. -/
structure PathCommand where
  letter : String
  parameters : List Data
deriving Repr

/-- A parameter in path data. A truth value is no parameter. -/
def Data.parameterText : Data → Except Fault String
  | .num n => if n.isWritable then .ok n.text else .error .badValue
  | .str s => .ok s
  | .bool b => .error ((Data.bool b).refusedAs .notFormattable)
  | other => if other.isWritable then .ok other.shown else .error .badValue

namespace PathCommand

def moveTo (x y : Data) : PathCommand :=
  ⟨"M", [x, y]⟩

def lineTo (x y : Data) : PathCommand :=
  ⟨"L", [x, y]⟩

def curveTo (x1 y1 x2 y2 x y : Data) : PathCommand :=
  ⟨"C", [x1, y1, x2, y2, x, y]⟩

def close : PathCommand :=
  ⟨"z", []⟩

def isCurve (command : PathCommand) : Bool :=
  command.letter == "C" || command.letter == "c"

def text (command : PathCommand) : Except Fault String := do
  let texts ← command.parameters.mapM Data.parameterText
  if command.isCurve then
    match texts with
    | x1 :: y1 :: x2 :: y2 :: x :: y :: _ =>
      return command.letter ++ x1 ++ "," ++ y1 ++ " " ++ x2 ++ "," ++ y2 ++ " " ++ x ++ "," ++ y
    | _ => .error .noItem
  else return command.letter ++ ",".intercalate texts

/-- Path data: the commands with spaces between them. -/
def pathText (commands : List PathCommand) : Except Fault String := do
  return " ".intercalate (← commands.mapM text)

end PathCommand

end Motion
