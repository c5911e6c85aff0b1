import Motion.Data.Lookup
import Motion.Easing.Compile
import Motion.Notice
import Motion.Scene.Property

/-!
The transform of a layer: its pivot, position, scale, rotation and opacity as scalars. Scale and
opacity come in percent. A group takes the transform as properties, of which those with their
neutral value are left out; it is moved by the position less the pivot.

With orientation along the path, the rotation follows the direction in which the position changes
from one frame to the next.
-/

set_option autoImplicit false
set_option relaxedAutoImplicit false

namespace Motion

/-- A transform by its scalars. -/
structure Transform where
  pivotX : Scalar := 0
  pivotY : Scalar := 0
  positionX : Scalar := 0
  positionY : Scalar := 0
  scaleX : Scalar := 1
  scaleY : Scalar := 1
  rotation : Scalar := 0
  opacity : Scalar := 1
deriving DecidableEq, Repr

/-- The first two of some scalars. -/
def firstTwo (scalars : List Scalar) : Except Fault (Scalar × Scalar) :=
  match scalars with
  | x :: y :: _ => .ok (x, y)
  | _ => .error .noItem

/-- One in a hundred. -/
def percent : Scalar :=
  .literal (.float (Binary64.ofRat (mkRat 1 100)))

namespace Transform

/-- What a step of reading does if there is data under a key, else nothing. -/
def whenGiven {α : Type} (data : Data) (key : String) (fallback : α)
    (read : Data → Compile α) : Compile α := do
  if ← Compile.lift (data.mentions key) then read (← Compile.lift (data.member key))
  else return fallback

section Reading

variable [Validator]

/-- A property of two components. -/
def readPair (path : String) (data : Data) : Compile (Scalar × Scalar) := do
  Compile.lift (firstTwo (← compileMultipleData data path))

/-- The position, whose coordinates may be separate properties. -/
def readPosition (path : String) (data : Data) : Compile (Scalar × Scalar) := do
  if (← Compile.lift (data.memberOrNull "s")).isTruthy then
    let x ← compileSingleData (← Compile.lift (data.member "x")) false (path ++ ".x")
    let y ← compileSingleData (← Compile.lift (data.member "y")) false (path ++ ".y")
    return (x, y)
  else readPair path data

/-- The scale as a fraction. -/
def readScale (path : String) (data : Data) : Compile (Scalar × Scalar) := do
  let percentages ← compileMultipleData data path
  let fractions ← Compile.lift
    (attributed path (percentages.mapM fun scalar => scalar.multiply percent))
  Compile.lift (firstTwo fractions)

/-- The opacity as a fraction. -/
def readOpacity (path : String) (data : Data) : Compile Scalar := do
  let percentage ← compileSingleData data false path
  Compile.lift (attributed path (percentage.multiply percent))

end Reading

/-- Whether a transform is skewed. -/
def isSkewed (data : Data) : Except Fault Bool := do
  let skew ← data.memberOrNull "sk"
  if !skew.isTruthy then return false
  if (← skew.memberOrNull "a").isTruthy then return true
  return (← skew.memberOrNull "k").isTruthy

/-- The transform given by data at a path, and a report if a skew is left out. -/
def read [Validator] (data : Data) (path : String) : Compile (Transform × List Notice) := do
  let pivot ← whenGiven data "a" (0, 0) (readPair (path ++ ".a"))
  let position ← whenGiven data "p" (0, 0) (readPosition (path ++ ".p"))
  let scale ← whenGiven data "s" (1, 1) (readScale (path ++ ".s"))
  let rotation ← whenGiven data "r" 0 fun value => compileSingleData value false (path ++ ".r")
  let opacity ← whenGiven data "o" 1 (readOpacity (path ++ ".o"))
  let skewed ← Compile.lift (isSkewed data)
  return ({ pivotX := pivot.1, pivotY := pivot.2, positionX := position.1, positionY := position.2,
            scaleX := scale.1, scaleY := scale.2, rotation := rotation, opacity := opacity },
    if skewed then [.skewIgnored path] else [])

/-- The scalars of the transform by property. A group is moved by the position
less the pivot. -/
def properties (transform : Transform) : Except Fault (List (Property × Scalar)) := do
  let x ← transform.positionX.subtract transform.pivotX
  let y ← transform.positionY.subtract transform.pivotY
  return [(.translateX, x), (.translateY, y), (.pivotX, transform.pivotX),
    (.pivotY, transform.pivotY), (.scaleX, transform.scaleX), (.scaleY, transform.scaleY),
    (.rotation, transform.rotation), (.opacity, transform.opacity)]

/-- Puts a property into a group unless it has its neutral value. -/
def assignProperty (group : Members) (property : Property) (scalar : Scalar) : Members :=
  match property.family.neutral? with
  | some neutral =>
    if scalar.isLiteral (.int neutral) then group else Entries.put group property.name scalar.embed
  | none => Entries.put group property.name scalar.embed

/-- Puts the transform into a group. -/
def assign (transform : Transform) (group : Members) : Except Fault Members := do
  return (← transform.properties).foldl
    (fun group (property, scalar) => assignProperty group property scalar) group

/-- The rotation that follows the direction in which the position changes. -/
def orientedRotation (transform : Transform) : Except Fault String := do
  let x ← transform.positionX.subtract transform.pivotX
  let y ← transform.positionY.subtract transform.pivotY
  let rotation ← transform.rotation.text?
  let dy ← y.slope
  let dx ← x.slope
  return Scalar.binding (rotation ++ " + 180 / Math.PI * Math.atan2(" ++ dy.text
    ++ ", " ++ dx.text ++ ")")

/-- Puts the rotation along the path into a group. -/
def orient (transform : Transform) (group : Members) : Except Fault Members := do
  return Entries.put group Property.rotation.name (.str (← transform.orientedRotation))

end Transform

end Motion
