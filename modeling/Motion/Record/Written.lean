import Motion.Record.Style

/-!
Records as data. Each field stands under its key, also where it was left out and has its default; a
field that has no value is null. Numbers that were read as binary64 stay so.
-/

set_option autoImplicit false
set_option relaxedAutoImplicit false

namespace Motion

namespace Data

/-- A list of items that are made data. -/
def ofList {α : Type} (f : α → Data) (xs : List α) : Data :=
  .list (xs.map f)

/-- An item that is made data, or null if there is none. -/
def ofOption {α : Type} (f : α → Data) (x : Option α) : Data :=
  (x.map f).getD .null

def ofBinary64 (x : Binary64) : Data :=
  .num (.float x)

def ofComponents (xs : List Binary64) : Data :=
  ofList ofBinary64 xs

def ofInt (i : Int) : Data :=
  .num (.int i)

end Data

def Handle.toData : Handle → Data
  | one x => .ofBinary64 x
  | each xs => .ofComponents xs

def Tangent.toData (tangent : Tangent) : Data :=
  .obj [("x", tangent.x.toData), ("y", tangent.y.toData)]

def Keyframe.toData (keyframe : Keyframe) : Data :=
  .obj [("t", .ofBinary64 keyframe.time), ("s", .ofOption .ofComponents keyframe.start),
    ("e", .ofOption .ofComponents keyframe.finish),
    ("i", .ofOption Tangent.toData keyframe.inward),
    ("o", .ofOption Tangent.toData keyframe.outward),
    ("ti", .ofOption .ofComponents keyframe.spatialIn),
    ("to", .ofOption .ofComponents keyframe.spatialOut)]

def Animated.toData (property : Animated) : Data :=
  .obj [("a", .ofInt property.flag), ("k", property.content)]

def Point.toData (point : Point) : Data :=
  .ofComponents [point.x, point.y]

def Curve.toData (curve : Curve) : Data :=
  let points (term : Term) : Data :=
    .ofList (fun vertex => (vertex.term term).toData) curve.vertices
  .obj [("i", points .inward), ("o", points .outward), ("v", points .position),
    ("c", .bool curve.closed)]

def ShapeKeyframe.toData (keyframe : ShapeKeyframe) : Data :=
  let curves : Option (List Curve) → Data := .ofOption (.ofList Curve.toData)
  .obj [("t", .ofBinary64 keyframe.time), ("s", curves keyframe.start),
    ("e", curves keyframe.finish), ("i", .ofOption Tangent.toData keyframe.inward),
    ("o", .ofOption Tangent.toData keyframe.outward)]

def GradientStops.toData (stops : GradientStops) : Data :=
  .obj [("p", .ofInt stops.count), ("k", stops.components.toData)]

def DashItem.toData (item : DashItem) : Data :=
  .obj [("n", .str item.part), ("nm", .str item.name), ("v", item.length.toData)]

end Motion
