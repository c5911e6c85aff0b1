import Motion.Data.Basic
import Motion.Record.Issue

/-!
The records of animated properties: keyframes of scalars and vectors, keyframes of curves, and
properties that are either fixed or a list of keyframes.

The three terms of a curve (vertices, inward and outward tangents) have equally many points of two
coordinates each, so a curve is a list of vertices with their tangents. That is what the check of its
terms is for (`CurveTerms.check`).
-/

set_option autoImplicit false
set_option relaxedAutoImplicit false

namespace Motion

/-- The coordinate of an easing handle: one number, or one for each component. -/
inductive Handle where
  | one (value : Binary64)
  | each (values : List Binary64)
deriving DecidableEq, Repr

/-- An easing handle. -/
structure Tangent where
  x : Handle
  y : Handle
deriving DecidableEq, Repr

/-- A keyframe of a scalar or vector: its time, its start and end value, its easing handles and its
spatial tangents. -/
structure Keyframe where
  time : Binary64
  start : Option (List Binary64)
  finish : Option (List Binary64)
  inward : Option Tangent
  outward : Option Tangent
  spatialIn : Option (List Binary64)
  spatialOut : Option (List Binary64)
deriving DecidableEq, Repr

/-- A property that is fixed or animated: its flag, and its value or keyframes as data. -/
structure Animated where
  flag : Int
  content : Data

namespace Animated

def isAnimated (property : Animated) : Bool :=
  property.flag ≠ 0

end Animated

/-- A point in the plane. -/
structure Point where
  x : Binary64
  y : Binary64
deriving DecidableEq, Repr

/-- A vertex of a curve with its tangents, which are relative to it. -/
structure Vertex where
  inward : Point
  outward : Point
  position : Point
deriving DecidableEq, Repr

/-- A curve through vertices. -/
structure Curve where
  vertices : List Vertex
  closed : Bool
deriving DecidableEq, Repr

/-- A keyframe of a curve. -/
structure ShapeKeyframe where
  time : Binary64
  start : Option (List Curve)
  finish : Option (List Curve)
  inward : Option Tangent
  outward : Option Tangent
deriving DecidableEq, Repr

/-- The terms of a curve that are animated on their own. -/
inductive Term where
  | inward
  | outward
  | position
deriving DecidableEq, Repr

/-- The point of a vertex in a term. -/
def Vertex.term (vertex : Vertex) : Term → Point
  | .inward => vertex.inward
  | .outward => vertex.outward
  | .position => vertex.position

/-- A number as a list of one. Other values stay as they are. -/
def Data.asComponents : Data → Data
  | .num n => .list [.num n]
  | value => value

/-- The terms of a curve as they are given: for each vertex a point, of any number of coordinates. -/
structure CurveTerms where
  inward : List (List Binary64)
  outward : List (List Binary64)
  positions : List (List Binary64)
  closed : Bool

/-- The point with the given coordinates, if there are two. -/
def point? : List Binary64 → Option Point
  | [x, y] => some ⟨x, y⟩
  | _ => none

/-- The vertices with points from the three terms, if all points have two coordinates. -/
def vertices? : List (List Binary64) → List (List Binary64) → List (List Binary64) →
    Option (List Vertex)
  | i :: inward, o :: outward, v :: positions =>
    match point? i, point? o, point? v, vertices? inward outward positions with
    | some i, some o, some v, some rest => some (⟨i, o, v⟩ :: rest)
    | _, _, _, _ => none
  | _, _, _ => some []

/-- The curve with the given terms. They have to be equally long and to hold points of two
coordinates. -/
def CurveTerms.check (terms : CurveTerms) : Checked Curve :=
  if terms.inward.length = terms.outward.length ∧
      terms.outward.length = terms.positions.length then
    match vertices? terms.inward terms.outward terms.positions with
    | some vertices => .ok ⟨vertices, terms.closed⟩
    | none => Checked.fail (.valueError "curve points must have exactly two coordinates")
  else Checked.fail (.valueError "in, out and vertex arrays must have equal length")

end Motion
