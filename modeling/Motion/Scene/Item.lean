import Motion.Scene.Depth
import Motion.Scene.Merge
import Motion.Scene.Progress

/-!
Scene trees while they are changed. An item is a group, which has items of its own, or a leaf, which
may be any value. Beside its other members a group can hold its transform properties under tags;
these are no members of the document and are there only while the tree is changed.

`Item.ofData` reads an item from a document, `Item.toData` writes it back; the place of `items`
among the members is kept.
-/

set_option autoImplicit false
set_option relaxedAutoImplicit false

namespace Motion

/-- Transform properties under their tags. -/
abbrev Tagged := Entries Tag Data

/-- How a group holds its items: not at all, as a single value, or as a list. -/
inductive Holding where
  | absent
  | single
  | listed
deriving DecidableEq, Repr

/-- A group apart from its items: the members before and after `items`, how the items are held, and
the tagged properties if there are any. -/
structure Frame where
  before : Members
  after : Members
  holding : Holding
  tags : Option Tagged

/-- An item of a scene: a leaf or a group. -/
inductive Item where
  | leaf (value : Data)
  | group (frame : Frame) (items : List Item)
deriving Inhabited

namespace Frame

/-- The members other than `items`. -/
def members (frame : Frame) : Members :=
  frame.before ++ frame.after

/-- The frame with the members that pass a test. -/
def filter (frame : Frame) (p : String × Data → Bool) : Frame :=
  { frame with before := frame.before.filter p, after := frame.after.filter p }

/-- The frame with a value under a key: in the place of the key, else after all members. -/
def put (frame : Frame) (key : String) (value : Data) : Frame :=
  if Entries.contains frame.before key then
    { frame with before := Entries.put frame.before key value }
  else { frame with after := Entries.put frame.after key value }

/-- The tagged properties; none at all if there is no map of them. -/
def tagged (frame : Frame) : Tagged :=
  frame.tags.getD []

end Frame

/-- Whether members are those of a group. -/
def isGroup (members : Members) : Bool :=
  match Entries.get? members typeKey with
  | some (.str kind) => kind == groupType
  | _ => false

/-- The frame of a group with the given members. -/
def frameOf (members : Members) : Frame where
  before := members.takeWhile fun member => !decide (member.1 = itemsKey)
  after := (members.dropWhile fun member => !decide (member.1 = itemsKey)).drop 1
  holding :=
    match Entries.get? members itemsKey with
    | none => .absent
    | some (.list _) => .listed
    | some _ => .single
  tags := none

namespace Item

mutual

/-- The item that a value of a document is. -/
def ofData : Data → Item
  | .obj members =>
    if isGroup members then .group (frameOf members) (itemsOf members) else .leaf (.obj members)
  | value => .leaf value

/-- The items under the first member `items`; a value that is no list counts as a list of one. -/
def itemsOf : List (String × Data) → List Item
  | [] => []
  | (key, .list items) :: rest => if key = itemsKey then ofList items else itemsOf rest
  | (key, value) :: rest => if key = itemsKey then [ofData value] else itemsOf rest

def ofList : List Data → List Item
  | [] => []
  | value :: rest => ofData value :: ofList rest

end

/-- The member `items` of a group, if there is one. -/
def itemsMember (holding : Holding) (items : List Data) : Members :=
  match holding with
  | .absent => []
  | .single => [(itemsKey, items.headD .null)]
  | .listed => [(itemsKey, .list items)]

mutual

/-- The value of a document that an item is. Tagged properties are left out. -/
def toData : Item → Data
  | .leaf value => value
  | .group frame items =>
    .obj (frame.before ++ itemsMember frame.holding (toList items) ++ frame.after)

def toList : List Item → List Data
  | [] => []
  | item :: rest => item.toData :: toList rest

end

def isGroup : Item → Bool
  | .leaf _ => false
  | .group .. => true

/-- The fault of a walk over a single value that stands for the items of a group. -/
def checkElements (items : List Item) : Option Fault :=
  match (items.headD (.leaf .null)).toData.elements? with
  | some _ => none
  | none => some .wrongType

end Item

end Motion
