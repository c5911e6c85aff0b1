import Motion.Fault
import Motion.Record.Keyframe

/-!
Easing programs. A program describes one animated number over time, as one segment for each
keyframe: the segments but the last lead from their keyframe to the next, in a straight line or
along a curve with easing handles, and the last one holds its value. Where a vector moves along a
path in space, each segment has the whole vector, and the program says which of how many components
it gives.

The text of a program is its segments as calls, separated by spaces.
-/

set_option autoImplicit false
set_option relaxedAutoImplicit false

namespace Motion

/-- The easing handles of a segment: how it leaves its keyframe and how it arrives at the next. -/
structure Handles where
  outX : Handle
  outY : Handle
  inX : Handle
  inY : Handle
deriving DecidableEq, Repr

/-- A segment of a program, from the time of its keyframe on. -/
inductive Segment where
  | line (time value : Binary64)
  | curve (time value : Binary64) (handles : Handles)
  | finish (time value : Binary64)
  | spatialCurve (time : Binary64) (start outward inward : List Binary64) (handles : Handles)
  | spatialFinish (time : Binary64) (start : List Binary64)
deriving DecidableEq, Repr

/-- A program; a spatial one says how many components there are and which one it gives. -/
structure Program where
  component : Option (Int × Int)
  segments : List Segment
deriving DecidableEq, Repr

/-- A number in a program. -/
def Binary64.text (x : Binary64) : List Char :=
  (Number.float x).textChars

/-- Texts joined with commas. -/
def commaJoined (texts : List (List Char)) : List Char :=
  [','].intercalate texts

namespace Handle

/-- One number, or several separated by commas. -/
def text : Handle → List Char
  | one value => value.text
  | each values => commaJoined (values.map Binary64.text)

/-- Equality by value. -/
def same : Handle → Handle → Bool
  | one x, one y => (Number.float x).same (.float y)
  | each xs, each ys =>
    xs.length == ys.length
      && (xs.zip ys).all fun (x, y) => (Number.float x).same (.float y)
  | _, _ => false

end Handle

/-- The texts of the handles, the outward ones first. -/
def Handles.texts (handles : Handles) : List (List Char) :=
  [handles.outX.text, handles.outY.text, handles.inX.text, handles.inY.text]

/-- The greatest count of places that a number is written to. -/
def greatestPlaces : Nat := 0x7FFFFFFF

/-- Whether a component can be written with the given places: a whole number always can. -/
def isPlaceable (precision : Nat) (x : Binary64) : Bool :=
  x.toInt?.isSome || precision ≤ greatestPlaces

/-- A component of a vector: a whole number exactly, any other one with the given places. -/
def componentText (precision : Nat) (x : Binary64) : List Char :=
  match x.toInt? with
  | some i => Number.intText i
  | none => Layout.fixedPlaces precision x

/-- A vector, its components separated by commas. -/
def vectorText (precision : Nat) (xs : List Binary64) : List Char :=
  commaJoined (xs.map (componentText precision))

namespace Segment

def head : Segment → List Char
  | line .. => "line".toList
  | curve .. => "curve".toList
  | finish .. => "end".toList
  | spatialCurve .. => "scurve".toList
  | spatialFinish .. => "send".toList

/-- The texts of the arguments; a vector is a single text. -/
def arguments (precision : Nat) : Segment → List (List Char)
  | line time value => [time.text, value.text]
  | curve time value handles => time.text :: value.text :: handles.texts
  | finish time value => [time.text, value.text]
  | spatialCurve time start outward inward handles =>
    time.text :: vectorText precision start :: vectorText precision outward
      :: vectorText precision inward :: handles.texts
  | spatialFinish time start => [time.text, vectorText precision start]

def text (precision : Nat) (segment : Segment) : List Char :=
  segment.head ++ '(' :: commaJoined (segment.arguments precision) ++ [')']

end Segment

namespace Program

/-- What stands in front of the segments of a spatial program. -/
def opening : Option (Int × Int) → List Char
  | none => []
  | some (count, index) =>
    "spatial(".toList ++ Number.intText count ++ ',' :: Number.intText index ++ ") ".toList

def text (precision : Nat) (program : Program) : List Char :=
  opening program.component
    ++ [' '].intercalate (program.segments.map (Segment.text precision))

end Program

/-- The count of places that a value gives: an integer, or digits as a text. Any other value is as
bad as a negative count. -/
def Data.places : Data → Int
  | .num (.int i) => i
  | .str s =>
    let digits := Numeral.plainDigits s.toList
    if digits.isEmpty || !digits.all Char.isDigit then -1 else Numeral.ofDigits digits
  | _ => -1

/-- A component of a list given as data: an integer or whole number exactly, a truth value as 0 or
1, a text if it denotes an integer, any other number with the given places. -/
def Data.componentText (precision : Int) : Data → Except Fault (List Char)
  | .num (.int i) => (inRange (Binary64.ofInt? i)).map fun _ => Number.intText i
  | .num (.float x) =>
    if (0 ≤ precision && isPlaceable precision.toNat x) || x.toInt?.isSome then
      .ok (Motion.componentText precision.toNat x)
    else .error .badValue
  | .bool b => .ok (Number.intText (if b then 1 else 0))
  | .str s =>
    match Numeral.int? s.toList with
    | some i => if (Binary64.ofInt? i).isSome then .ok (Number.intText i) else .error .badValue
    | none => .error .badValue
  | _ => .error .wrongType

/-- A list given as data, or a single value as a list of one. -/
def Data.vectorText (precision : Int) (value : Data) : Except Fault (List Char) :=
  let items :=
    match value with
    | .list items => items
    | other => [other]
  (items.mapM (Data.componentText precision)).map commaJoined

end Motion
