import Motion.Lax.Check
import Motion.Record.Validator

/-!
Lax checks of records. They make up the validator that the program runs with; the conversion itself is
for any validator.
-/

set_option autoImplicit false
set_option relaxedAutoImplicit false

namespace Motion

namespace Check

/-- A handle coordinate. If it is neither a number nor a list, the issues of both readings are
given. -/
def handle (value : Data) : Checked Handle :=
  match float value, list float value with
  | .ok x, _ => .ok (.one x)
  | .error _, .ok xs => .ok (.each xs)
  | .error issues, .error more =>
    .error (issues.map (Issue.under (.field "float"))
      ++ more.map (Issue.under (.field "list[float]")))

def tangent : Data → Checked Tangent :=
  record fun members =>
    Checked.apply ((required members "x" handle).map Tangent.mk) (required members "y" handle)

def keyframe (prepare : Data → Data) : Data → Checked Keyframe :=
  record fun members =>
    let member {α : Type} (name : String) (check : Data → Checked α) : Checked (Option α) :=
      optionalMember members name none (optional check)
    let prepared (name : String) : Checked (Option (List Binary64)) :=
      member name fun value => list float (prepare value)
    let time := (required members "t" float).map Keyframe.mk
    let start := Checked.apply time (prepared "s")
    let finish := Checked.apply start (prepared "e")
    let inward := Checked.apply finish (member "i" tangent)
    let outward := Checked.apply inward (member "o" tangent)
    let spatialIn := Checked.apply outward (member "ti" (list float))
    Checked.apply spatialIn (member "to" (list float))

def animated : Data → Checked Animated :=
  record fun members =>
    Checked.apply ((optionalMember members "a" 0 int).map Animated.mk)
      (required members "k" anything)

/-- A curve, with a check of its terms that is made once all of them are there. -/
def curveWith (check : CurveTerms → Checked Curve) : Data → Checked Curve :=
  record fun members =>
    let points := list (list float)
    let inward := (required members "i" points).map CurveTerms.mk
    let outward := Checked.apply inward (required members "o" points)
    let positions := Checked.apply outward (required members "v" points)
    (Checked.apply positions (optionalMember members "c" false bool)).bind check

def shapeKeyframe (check : CurveTerms → Checked Curve) : Data → Checked ShapeKeyframe :=
  record fun members =>
    let member {α : Type} (name : String) (check : Data → Checked α) : Checked (Option α) :=
      optionalMember members name none (optional check)
    let time := (required members "t" float).map ShapeKeyframe.mk
    let start := Checked.apply time (member "s" (list (curveWith check)))
    let finish := Checked.apply start (member "e" (list (curveWith check)))
    let inward := Checked.apply finish (member "i" tangent)
    Checked.apply inward (member "o" tangent)

def gradientStops : Data → Checked GradientStops :=
  record fun members =>
    let count := (required members "p" (intFrom 0)).map fun count => count.val.toNat
    Checked.apply (count.map GradientStops.mk) (required members "k" animated)

def dashItem : Data → Checked DashItem :=
  record fun members =>
    let part := (required members "n" string).map DashItem.mk
    let name := Checked.apply part (optionalMember members "nm" "" string)
    Checked.apply name (required members "v" animated)

def dashItems : Data → Checked (List DashItem) :=
  list dashItem

end Check

/-- The validator that the program runs with. -/
instance lax : Validator where
  animated := Check.animated
  keyframes prepare := Check.list (Check.keyframe prepare)
  curve := Check.curveWith
  shapeKeyframes check := Check.list (Check.shapeKeyframe check)
  gradientStops := Check.gradientStops
  dashItems := Check.dashItems

namespace Check

/-- Keyframes of scalars and vectors. -/
def keyframes : Data → Checked (List Keyframe) :=
  lax.keyframes Data.asComponents

def curve : Data → Checked Curve :=
  lax.curve CurveTerms.check

/-- Keyframes of curves. -/
def shapeKeyframes : Data → Checked (List ShapeKeyframe) :=
  lax.shapeKeyframes CurveTerms.check

end Check

end Motion
