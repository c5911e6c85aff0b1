import Motion.Easing.Shape
import Motion.Path.Box
import Motion.Path.Command

/-!
Tracing an outline: the commands that draw it, and the box around it where it does not move. Between
two neighbouring vertices runs a cubic curve, whose control points are the vertices with the
outward tangent of the first and the inward tangent of the second added.
-/

set_option autoImplicit false
set_option relaxedAutoImplicit false

namespace Motion

/-- A point of an outline by its scalars. -/
structure ScalarPoint where
  x : Scalar
  y : Scalar
deriving DecidableEq, Repr

namespace ScalarPoint

/-- The first two coordinates. -/
def ofList (coordinates : List Scalar) : Except Fault ScalarPoint :=
  match coordinates with
  | x :: y :: _ => .ok ⟨x, y⟩
  | _ => .error .noItem

/-- The coordinates of a vertex, of which there have to be two. -/
def ofVertex (coordinates : List Scalar) : Except Fault ScalarPoint :=
  match coordinates with
  | [x, y] => .ok ⟨x, y⟩
  | _ => .error .badValue

/-- The vertex with a tangent added. -/
def plus (vertex : ScalarPoint) (tangent : List Scalar) : Except Fault ScalarPoint := do
  let dx ← (tangent[0]?).elim (.error .noItem) .ok
  let x ← vertex.x.add dx
  let dy ← (tangent[1]?).elim (.error .noItem) .ok
  let y ← vertex.y.add dy
  return ⟨x, y⟩

/-- The box grown to hold a point that does not move. -/
def grow (box : Box) (point : ScalarPoint) : Except Fault Box := do
  return box.update (← point.x.number) (← point.y.number)

end ScalarPoint

/-- The item at a position of a list that has to be there. -/
def itemAt {α : Type} (items : List α) (n : Nat) : Except Fault α :=
  match items[n]? with
  | some item => .ok item
  | none => .error .noItem

/-- What has been traced so far: the box, unless the outline moves, and the commands. -/
structure Trace where
  bounds : Option Box
  commands : List PathCommand

namespace Outline

/-- The curve from the vertex at a position to the next one, which after the last is the first. -/
def traceSegment (outline : Outline) (trace : Trace) (j : Nat) : Except Fault Trace := do
  let next := (j + 1) % outline.positions.length
  let start ← ScalarPoint.ofVertex (← itemAt outline.positions j)
  let leaving ← start.plus (← itemAt outline.outward j)
  let finish ← ScalarPoint.ofVertex (← itemAt outline.positions next)
  let arriving ← finish.plus (← itemAt outline.inward next)
  let bounds ←
    match trace.bounds with
    | none => .ok none
    | some box => do
      let box ← leaving.grow box
      let box ← finish.grow box
      let box ← arriving.grow box
      .ok (some box)
  return ⟨bounds, trace.commands ++
    [.curveTo leaving.x.embed leaving.y.embed arriving.x.embed arriving.y.embed finish.x.embed
      finish.y.embed]⟩

/-- The commands that draw an outline, with its box unless it moves. -/
def trace (outline : Outline) (moving : Bool) : Except Fault Trace :=
  let empty : Option Box := if moving then none else some .undefined
  match outline.positions with
  | [] => .ok ⟨empty, []⟩
  | first :: _ => do
    let first ← ScalarPoint.ofList first
    let bounds ←
      match empty with
      | none => .ok none
      | some box => (first.grow box).map some
    let count := outline.positions.length
    let segments := if outline.closed then count else count - 1
    let traced ← (List.range segments).foldlM outline.traceSegment
      ⟨bounds, [.moveTo first.x.embed first.y.embed]⟩
    return if outline.closed then { traced with commands := traced.commands ++ [.close] }
      else traced

end Outline

/-- A shape given as data, compiled and traced. -/
def compilePathData [Validator] (data : Data) (path : String) : Compile Trace := do
  let shape ← Compile.lift (validated (Validator.animated data))
  let outline ← compileShape shape path
  Compile.lift (attributed path (outline.trace shape.isAnimated))

end Motion
