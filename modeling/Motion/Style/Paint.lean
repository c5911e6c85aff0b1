import Motion.Easing.Compile
import Motion.Scalar.Function

/-!
The painting of outlines: the color stops of gradients and the dash patterns of strokes.
-/

set_option autoImplicit false
set_option relaxedAutoImplicit false

namespace Motion

/-- A half, for rounding. -/
def half : Number :=
  .float (Binary64.ofRat (mkRat 1 2))

/-- A value rounded to the next integer, a half upwards. Truth values count as 0 and 1; a text stays
as it is. -/
def Data.rounded : Data → Except Fault Data
  | .str s => .ok (.str s)
  | .num n => do
    let raised ← inRange (n.add half)
    return .num (← Function.floorOf raised)
  | .bool b => .ok (.num (.int (if b then 1 else 0)))
  | _ => .error .wrongType

/-- The color stops of a gradient: their offsets and their colors. -/
structure ColorStops where
  offsets : List Data
  colors : List String

/-- The text of a color channel: a number, or a data binding. -/
def channelText : Data → String
  | .num n => n.text
  | .str s => s
  | other => other.shown

/-- A color channel, given as a fraction, on the scale to 255. -/
def channel (fraction : Scalar) : Except Fault String := do
  let scaled ← fraction.multiply (.literal (.int 255))
  return channelText (← scaled.embed.rounded)

/-- The color with the given channels. -/
def colorText (red green blue : Scalar) : Except Fault String := do
  let r ← channel red
  let g ← channel green
  let b ← channel blue
  return "rgb(" ++ r ++ "," ++ g ++ "," ++ b ++ ")"

/-- The first stops of some components, four for each. -/
def colorStops : Nat → List Scalar → Except Fault ColorStops
  | count + 1, offset :: red :: green :: blue :: rest => do
    let color ← colorText red green blue
    let more ← colorStops count rest
    return ⟨offset.embed :: more.offsets, color :: more.colors⟩
  | _, _ => .ok ⟨[], []⟩

section Compiling

variable [Validator]

/-- The color stops of a gradient given as data. -/
def compileGradient (data : Data) (path : String) : Compile ColorStops := do
  let stops ← Compile.lift (validated (Validator.gradientStops data))
  let scalars ← compileMultiple stops.components (path ++ ".k")
  if (scalars.length : Int) < stops.count * 4 then
    Compile.lift (usable (Number.int stops.count).isWritable)
    throw (.easing (.tooFewComponents stops.count scalars.length) path none)
  Compile.lift (attributed path (colorStops stops.count scalars))

/-- A dash pattern: the lengths of its dashes and gaps, and its offset. -/
structure DashPattern where
  lengths : List Data
  offset : Data

/-- The length of a part of a dash pattern. -/
def dashLength (item : DashItem) (path : String) : Compile Data := do
  if item.length.isAnimated then
    match ← compileMultiple item.length path with
    | first :: _ => return first.embed
    | [] => throw .noItem
  else return (← compileSingle item.length false path).embed

/-- The pattern of the parts from the one with number `n` on, added to what there is. -/
def dashPattern (path : String) (pattern : DashPattern) :
    Nat → List DashItem → Compile DashPattern
  | _, [] => return pattern
  | n, item :: rest => do
    let length ← dashLength item (path ++ "[" ++ (Number.int n).text ++ "].v")
    let pattern :=
      if item.part == "o" then { pattern with offset := length }
      else { pattern with lengths := pattern.lengths ++ [length] }
    dashPattern path pattern (n + 1) rest

/-- The dash pattern of a stroke given as data. -/
def compileDashes (data : Data) (path : String) : Compile DashPattern := do
  dashPattern path ⟨[], .num 0⟩ 0 (← Compile.lift (validated (Validator.dashItems data)))

end Compiling

end Motion
