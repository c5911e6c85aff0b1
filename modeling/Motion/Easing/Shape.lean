import Motion.Easing.Compile

/-!
Compiling animated shapes. Each coordinate of each vertex is a number of its own; one that is the
same in all keyframes stays a number. A segment is straight where both handles lie on the diagonal.
-/

set_option autoImplicit false
set_option relaxedAutoImplicit false

namespace Motion

/-- Which coordinate of a point. -/
inductive Axis where
  | x
  | y
deriving DecidableEq, Repr

def Point.along (point : Point) : Axis → Binary64
  | .x => point.x
  | .y => point.y

/-- A shape by its terms: for each vertex the coordinates of its point. -/
structure Outline where
  inward : List (List Scalar)
  outward : List (List Scalar)
  positions : List (List Scalar)
  closed : Bool

/-- The handles of the keyframes but the last. -/
def shapeHandles (path : String) : Nat → List ShapeKeyframe → Except Fault (List Handles)
  | _, [] => .ok []
  | _, [_] => .ok []
  | n, keyframe :: next :: rest =>
    match keyframe.inward, keyframe.outward with
    | some inward, some outward => do
      let more ← shapeHandles path (n + 1) (next :: rest)
      return ⟨outward.x, outward.y, inward.x, inward.y⟩ :: more
    | _, _ => .error (.easing .missingHandles path (some n))

/-- The segments for the values of one coordinate. -/
def shapeSegments : List Binary64 → List Binary64 → List Handles → List Segment
  | time :: times, value :: values, handles :: more =>
    (if handles.inX.same handles.inY && handles.outX.same handles.outY then .line time value
      else .curve time value handles) :: shapeSegments times values more
  | time :: _, value :: _, [] => [.finish time value]
  | _, _, _ => []

/-- The course of one coordinate from its values at the keyframes. -/
def shapeCourse (times : List Binary64) (handles : List Handles) (values : List Binary64) :
    Except Fault Course :=
  match values with
  | [] => .error .noItem
  | first :: _ =>
    if values.all fun value => value.same first then .ok (.constant first)
    else .ok (.moving ⟨none, shapeSegments times values handles⟩)

/-- The curve that a keyframe shows: its start, or else the end of the keyframe before. -/
def shownCurve (path : String) (n : Nat) (previous : Option ShapeKeyframe)
    (keyframe : ShapeKeyframe) : Except Fault Curve :=
  match keyframe.start, previous.bind (·.finish) with
  | some (curve :: _), _ => .ok curve
  | _, some (curve :: _) => .ok curve
  | _, _ => .error (.easing .noCurve path (some n))

/-- The values of one coordinate of a vertex at the keyframes, from the one with number `n` on. -/
def coordinates (path : String) (term : Term) (vertex : Nat) (axis : Axis) :
    Nat → Option ShapeKeyframe → List ShapeKeyframe → Except Fault (List Binary64)
  | _, _, [] => .ok []
  | n, previous, keyframe :: rest => do
    let curve ← shownCurve path n previous keyframe
    match curve.vertices[vertex]? with
    | none => .error .noItem
    | some point =>
      let more ← coordinates path term vertex axis (n + 1) (some keyframe) rest
      return (point.term term).along axis :: more

/-- Compiles one coordinate of a vertex. -/
def compileCoordinate (keyframes : List ShapeKeyframe) (handles : List Handles) (path : String)
    (term : Term) (vertex : Nat) (axis : Axis) : Compile Scalar := do
  let values ← Compile.lift (coordinates path term vertex axis 0 none keyframes)
  let course ← Compile.lift (shapeCourse (keyframes.map (·.time)) handles values)
  course.register

/-- Compiles one term of a shape: for each vertex its two coordinates. -/
def compileTerm (keyframes : List ShapeKeyframe) (term : Term) (count : Nat) (path : String) :
    Compile (List (List Scalar)) := do
  let handles ← Compile.lift (shapeHandles path 0 keyframes)
  (List.range count).mapM fun vertex => do
    let x ← compileCoordinate keyframes handles path term vertex .x
    let y ← compileCoordinate keyframes handles path term vertex .y
    return [x, y]

/-- The scalars of a point. -/
def Point.scalars (point : Point) : List Scalar :=
  [.literal (.float point.x), .literal (.float point.y)]

/-- The outline of a fixed curve. -/
def Curve.outline (curve : Curve) : Outline where
  inward := curve.vertices.map fun vertex => vertex.inward.scalars
  outward := curve.vertices.map fun vertex => vertex.outward.scalars
  positions := curve.vertices.map fun vertex => vertex.position.scalars
  closed := curve.closed

section Shapes

variable [Validator]

/-- Compiles a shape to its outline. The first curve says how many vertices there are and whether it
is closed. -/
def compileShape (shape : Animated) (path : String) : Compile Outline :=
  if shape.isAnimated then do
    let keyframes ← Compile.lift shape.shapeKeyframes
    let first ← Compile.lift
      (match keyframes.head?.bind (·.start) with
        | some (first :: _) => .ok first
        | _ => .error .noItem)
    let count := first.vertices.length
    let inward ← compileTerm keyframes .inward count path
    let outward ← compileTerm keyframes .outward count path
    let positions ← compileTerm keyframes .position count path
    return ⟨inward, outward, positions, first.closed⟩
  else do
    let curve ← Compile.lift shape.curve
    return curve.outline

/-- A shape given as data, compiled to its outline. -/
def compileShapeData (data : Data) (path : String) : Compile Outline := do
  compileShape (← Compile.lift (validated (Validator.animated data))) path

end Shapes

end Motion
