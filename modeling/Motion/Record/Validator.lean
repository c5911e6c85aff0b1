import Motion.Fault
import Motion.Record.Style

/-!
Reading records from data. How a value is read as the number, truth value, list or record that a field
asks for is left to a library, of which a conversion uses one function for each kind of record
(`Validator`). The checks of the records' own are handed to it: a number where a list of components is
asked for (`Data.asComponents`), and the terms of a curve (`CurveTerms.check`).
-/

set_option autoImplicit false
set_option relaxedAutoImplicit false

namespace Motion

/-- A library that reads records from data. Each function gives a record or the issues that stand in
its way. What holds of a record that passes is told by its type, and nothing else is assumed of the
library: a curve has passed the check of its terms, and the fields of other records may have been read
in any way. -/
class Validator where
  /-- A property: its flag and any content. -/
  animated : Data → Checked Animated
  /-- Keyframes of scalars and vectors, whose start and end are prepared before they are read. -/
  keyframes (prepare : Data → Data) : Data → Checked (List Keyframe)
  /-- A curve, whose terms are checked once they are read. -/
  curve (check : CurveTerms → Checked Curve) : Data → Checked Curve
  /-- Keyframes of curves, whose terms are checked once they are read. -/
  shapeKeyframes (check : CurveTerms → Checked Curve) : Data → Checked (List ShapeKeyframe)
  gradientStops : Data → Checked GradientStops
  dashItems : Data → Checked (List DashItem)

/-- A failed check as a fault. -/
def validated {α : Type} : Checked α → Except Fault α
  | .ok a => .ok a
  | .error issues => .error (.invalid issues)

namespace Animated

variable [Validator]

/-- The keyframes of a property of scalars or vectors. -/
def keyframes (property : Animated) : Except Fault (List Keyframe) :=
  validated (Validator.keyframes Data.asComponents property.content)

/-- The curve of a fixed shape. -/
def curve (shape : Animated) : Except Fault Curve :=
  validated (Validator.curve CurveTerms.check shape.content)

/-- All curves of a keyframe. -/
def curvesOf (keyframe : ShapeKeyframe) : List Curve :=
  keyframe.start.getD [] ++ keyframe.finish.getD []

/-- The keyframes of a shape. The first one has a start curve, and all curves have as many vertices
as that. -/
def shapeKeyframes (shape : Animated) : Except Fault (List ShapeKeyframe) := do
  let keyframes ← validated (Validator.shapeKeyframes CurveTerms.check shape.content)
  match keyframes.head?.bind (·.start) with
  | some (first :: _) =>
    if keyframes.all fun keyframe =>
        (curvesOf keyframe).all fun curve => curve.vertices.length == first.vertices.length
    then return keyframes
    else .error (.shape .unequalCounts)
  | _ => .error (.shape .noFirstCurve)

end Animated

end Motion
