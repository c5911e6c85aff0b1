import Motion.Easing.Program
import Motion.Easing.Table
import Motion.Record.Validator

/-!
Compiling animated properties. A component of a property whose keyframes all start with the same
number is that number; any other one becomes a program, and reads the program's easing. Programs are
registered in the easing table as they come, and stay registered also when a later component meets a
fault.

The start of a keyframe without one of its own is the end of the keyframe before, or else the start
of that.
-/

set_option autoImplicit false
set_option relaxedAutoImplicit false

namespace Motion

/-- A compilation: it may meet a fault, and registers programs either way. -/
abbrev Compile (α : Type) := ExceptT Fault (StateM EasingTable) α

/-- What an animated number compiles to. -/
inductive Course where
  | constant (value : Binary64)
  | moving (program : Program)
deriving DecidableEq, Repr

/-- The scalar of a course, with its program registered. -/
def Course.register : Course → Compile Scalar
  | constant value => return .literal (.float value)
  | moving program => do
    let table ← get
    let (table, token) := table.add (String.ofList (program.text table.precision))
    set table
    return Scalar.ofToken token

/-- Equality of two numbers by value. -/
def Binary64.same (x y : Binary64) : Bool :=
  (Number.float x).same (.float y)

/-- The component at an index; in a list that is too short, the first one. A negative index counts
from the end. -/
def pick (index : Int) (values : List Binary64) : Except Fault Binary64 :=
  let count : Int := values.length
  let position := if index < 0 then count + index else if index < count then index else 0
  match if position < 0 then none else values[position.toNat]? with
  | some value => .ok value
  | none => .error .noItem

/-- The component of a handle coordinate at an index. -/
def Handle.pick (index : Int) : Handle → Except Fault Handle
  | one value => .ok (one value)
  | each values => (Motion.pick index values).map one

/-- The handles of a segment for one component. -/
def pickHandles (index : Int) (outward inward : Tangent) : Except Fault Handles := do
  let outX ← outward.x.pick index
  let outY ← outward.y.pick index
  let inX ← inward.x.pick index
  let inY ← inward.y.pick index
  return ⟨outX, outY, inX, inY⟩

/-- Whether all keyframes start with a given number. -/
def allStartWith (index : Int) (value : Binary64) : List Keyframe → Except Fault Bool
  | [] => .ok true
  | keyframe :: rest =>
    match keyframe.start with
    | none => .ok false
    | some start => do
      if (← pick index start).same value then allStartWith index value rest else return false

/-- Passes vectors whose components can all be written with the given places. -/
def checkPlaces (precision : Nat) (vectors : List (List Binary64)) : Except Fault Unit :=
  if vectors.all fun vector => vector.all (isPlaceable precision) then .ok ()
  else .error .badValue

/-- The segment of a keyframe that moves along a path in space; only the last one needs no
tangents. -/
def spatialSegment (precision : Nat) (index : Int) (path : String) (n : Nat) (isLast : Bool)
    (start : List Binary64) (keyframe : Keyframe) : Except Fault Segment :=
  if isLast then .ok (.spatialFinish keyframe.time start)
  else
    match keyframe.spatialIn, keyframe.spatialOut, keyframe.inward, keyframe.outward with
    | some spatialIn, some spatialOut, some inward, some outward => do
      checkPlaces precision [spatialOut, spatialIn]
      let handles ← pickHandles index outward inward
      return .spatialCurve keyframe.time start spatialOut spatialIn handles
    | _, _, _, _ => .error (.easing .missingTangents path (some n))

/-- The segments of keyframes that move along a path in space, from the keyframe with number `n` on.
`last` is the end of what came before. All vectors have to be writable, also those that no segment
shows. -/
def spatialSegments (precision : Nat) (index : Int) (path : String) :
    Nat → List Binary64 → List Keyframe → Except Fault (List Segment)
  | _, _, [] => .ok []
  | n, last, keyframe :: rest => do
    let start := keyframe.start.getD last
    checkPlaces precision [start]
    let segment ← spatialSegment precision index path n rest.isEmpty start keyframe
    let finish := keyframe.finish.getD start
    checkPlaces precision [finish]
    let more ← spatialSegments precision index path (n + 1) finish rest
    return segment :: more

/-- The segment of a keyframe. The last one holds its value, negated if the direction is reversed;
another one is a curve if the keyframe has an inward handle. -/
def plainSegment (index : Int) (reversed : Bool) (path : String) (n : Nat) (isLast : Bool)
    (value : Binary64) (keyframe : Keyframe) : Except Fault Segment :=
  if isLast then .ok (.finish keyframe.time (if reversed then value.neg else value))
  else
    match keyframe.inward, keyframe.outward with
    | some inward, some outward => do
      let handles ← pickHandles index outward inward
      return .curve keyframe.time value handles
    | some _, none => .error (.easing .missingOutHandle path (some n))
    | none, _ => .ok (.line keyframe.time value)

/-- The segments of keyframes, from the one with number `n` on. `last` is the end of what came
before. -/
def plainSegments (index : Int) (reversed : Bool) (path : String) :
    Nat → Binary64 → List Keyframe → Except Fault (List Segment)
  | _, _, [] => .ok []
  | n, last, keyframe :: rest => do
    let value ←
      match keyframe.start with
      | some start => pick index start
      | none => .ok last
    let segment ← plainSegment index reversed path n rest.isEmpty value keyframe
    let finish ←
      match keyframe.finish with
      | some finish => pick index finish
      | none => .ok value
    let more ← plainSegments index reversed path (n + 1) finish rest
    return segment :: more

/-- The course of the component at an index of a property with the given count of components. The
vectors of a spatial program are written with the given places. -/
def courseOf (precision : Nat) (keyframes : List Keyframe) (count : Int) (index : Int)
    (reversed : Bool) (path : String) : Except Fault Course :=
  match keyframes with
  | [] => .error (.easing .noKeyframes path none)
  | first :: _ =>
    match first.start with
    | none => .error (.easing .noStart path (some 0))
    | some [] => .error (.easing .noStart path (some 0))
    | some start => do
      let value ← pick index start
      if ← allStartWith index value keyframes then return .constant value
      if first.spatialIn.isSome then
        let segments ← spatialSegments precision index path 0 start keyframes
        return .moving ⟨some (count, index), segments⟩
      else
        let segments ← plainSegments index reversed path 0 value keyframes
        return .moving ⟨none, segments⟩

/-- A result without registrations, as a compilation. -/
def Compile.lift {α : Type} : Except Fault α → Compile α
  | .ok a => return a
  | .error fault => throw fault

/-- Compiles the component at an index of a property. -/
def compileComponent (keyframes : List Keyframe) (count : Int) (index : Int) (reversed : Bool)
    (path : String) : Compile Scalar := do
  let course ← Compile.lift (courseOf (← get).precision keyframes count index reversed path)
  course.register

/-- A value as the scalar of the property at a path. -/
def fixedScalar (path : String) (value : Data) : Compile Scalar :=
  Compile.lift (attributed path (Scalar.ofData value none))

section Properties

variable [Validator]

/-- Compiles a property of one component, such as a rotation or an opacity. -/
def compileSingle (property : Animated) (reversed : Bool) (path : String) : Compile Scalar :=
  if property.isAnimated then do
    compileComponent (← Compile.lift property.keyframes) 1 0 reversed path
  else
    match property.content with
    | .list [value] => fixedScalar path value
    | value => fixedScalar path value

/-- Compiles a property of several components, each to a scalar. -/
def compileMultiple (property : Animated) (path : String) : Compile (List Scalar) :=
  if property.isAnimated then do
    let keyframes ← Compile.lift property.keyframes
    match keyframes.head?.bind (·.start) with
    | some (value :: rest) =>
      let count := (value :: rest).length
      (List.range count).mapM fun (index : Nat) => compileComponent keyframes count index false path
    | _ => throw (.easing .noStart path (some 0))
  else
    match property.content with
    | .list values => values.mapM (fixedScalar path)
    | value => return [← fixedScalar path value]

/-- A property given as data, compiled as one component. -/
def compileSingleData (data : Data) (reversed : Bool) (path : String) : Compile Scalar := do
  compileSingle (← Compile.lift (validated (Validator.animated data))) reversed path

/-- A property given as data, compiled by components. -/
def compileMultipleData (data : Data) (path : String) : Compile (List Scalar) := do
  compileMultiple (← Compile.lift (validated (Validator.animated data))) path

end Properties

end Motion
