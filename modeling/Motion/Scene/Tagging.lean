import Motion.Scene.Item

/-!
Moving the transform properties of groups under tags, and back among their members. On the way in,
null values, private keys and properties that do not show are dropped, numeric texts become numbers
and bindings lose their blanks. On the way out, the number and the binding of one property are
merged into one binding.
-/

set_option autoImplicit false
set_option relaxedAutoImplicit false

namespace Motion

/-- Puts the property of a member under the tag of its value. -/
def tagMember (members : Members) (tags : Tagged) (property : Property) : Tagged :=
  match Entries.get? members property.name with
  | some value => Entries.put tags ⟨property, value.kind⟩ value.tagged
  | none => tags

/-- The transform properties among some members, under tags. -/
def tagMembers (members : Members) : Tagged :=
  Property.all.foldl (tagMember members) []

/-- Whether a key is not that of a transform property. -/
def isPlain (member : String × Data) : Bool :=
  (Property.ofName? member.1).isNone

/-- The value of a property once its number and its binding are merged. -/
def untagValue? (tags : Tagged) (property : Property) : Except Fault (Option Data) :=
  let number := Entries.get? tags ⟨property, .numeric⟩
  let binding := Entries.get? tags ⟨property, .binding⟩
  let special := Entries.get? tags ⟨property, .special⟩
  match binding, number, special with
  | some _, some number, _ =>
    (mergeText tags ⟨property, .binding⟩ number none).map fun merged =>
      Entries.get? merged ⟨property, .binding⟩
  | some binding, none, _ => .ok (some binding)
  | none, some number, _ => .ok (some number)
  | none, none, special => .ok special

namespace Frame

/-- Drops what does not show and moves the transform properties under fresh tags. A null in place of
the items is dropped like any other. -/
def tag (frame : Frame) (items : List Item) : Frame :=
  let visible := frame.filter isPublic
  let shown := visible.filter (shows (pivotUsed visible.members))
  { shown.filter isPlain with
    holding :=
      if frame.holding = .single && (items.headD (.leaf .null)).toData.isNull then .absent
      else frame.holding
    tags := some (tagMembers shown.members) }

/-- Puts a property from under its tags back among the members. -/
def untagProperty (tags : Tagged) (frame : Frame) (property : Property) : Progress Frame :=
  .ofExcept frame ((untagValue? tags property).map fun value? =>
    match value? with
    | some value => frame.put property.name value
    | none => frame)

/-- Puts the tagged properties back among the members and drops the tags. -/
def untag (frame : Frame) : Progress Frame :=
  Property.all.foldl
    (fun acc property => acc.andThen fun before => untagProperty frame.tagged before property)
    (.done { frame with tags := none })

end Frame

namespace Item

mutual

/-- Changes the groups from an item at the given depth on downwards. A group is changed before its
items, by what it is and what they are. -/
def changeBelow (change : Frame → List Item → Progress Frame) (limit depth : Int) :
    Item → Progress Item
  | .leaf value => .done (.leaf value)
  | .group frame items =>
    let changed := change frame items
    .guarded changed.fault? (.group changed.value items)
      (match changed.value.holding with
      | .absent => .done (.group changed.value [])
      | .single =>
        .guarded ((checkDepth limit (depth + 1)).or (checkElements items))
          (.group changed.value items) (.done (.group changed.value items))
      | .listed =>
        .guarded (checkDepth limit (depth + 1)) (.group changed.value items)
          ((changeEach change limit (depth + 1) items).map (.group changed.value)))

/-- Changes the groups from each item of a list at the given depth on downwards. -/
def changeEach (change : Frame → List Item → Progress Frame) (limit depth : Int) :
    List Item → Progress (List Item)
  | [] => .done []
  | item :: rest =>
    .cons (changeBelow change limit depth item) rest (changeEach change limit depth rest)

end

/-- Changes all groups below a root. -/
def changeAll (change : Frame → List Item → Progress Frame) (limit : Int) (items : List Item) :
    Progress (List Item) :=
  .guarded (checkDepth limit 0) items (changeEach change limit 0 items)

/-- Tags all groups below a root. -/
def tagAll (limit : Int) (items : List Item) : Progress (List Item) :=
  changeAll (fun frame items => .done (frame.tag items)) limit items

/-- Untags all groups below a root. -/
def untagAll (limit : Int) (items : List Item) : Progress (List Item) :=
  changeAll (fun frame _ => frame.untag) limit items

end Item

end Motion
