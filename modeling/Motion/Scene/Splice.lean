import Motion.Scene.Item

/-!
Splicing out groups that do nothing: those with no member but their type and with at most one item,
which takes their place.
-/

set_option autoImplicit false
set_option relaxedAutoImplicit false

namespace Motion.Item

/-- Whether a group does nothing and can give way to its items. -/
def isRedundant : Item → Bool
  | .leaf _ => false
  | .group frame items =>
    frame.holding = .listed && frame.members.length = 1 && frame.tags.isNone && items.length ≤ 1

/-- What stands in the place of an item: a redundant group gives way to its items. -/
def spliced (item : Item) : List Item :=
  match item with
  | .leaf _ => [item]
  | .group _ items => if item.isRedundant then items else [item]

/-- The list without redundant groups. -/
def spliceEach (items : List Item) : List Item :=
  items.flatMap spliced

/-- The items of a group, or what a walk meets in a single value that stands for them. -/
def elementsOf (items : List Item) : List Item :=
  ((items.headD (.leaf .null)).toData.elements?.getD []).map .leaf

mutual

/-- Splices below an item at the given depth; the item itself stays. -/
def spliceBelow (limit depth : Int) : Item → Progress Item
  | .leaf value => .done (.leaf value)
  | .group frame items =>
    match frame.holding with
    | .absent => .done (.group frame items)
    | .single =>
      .guarded ((checkDepth limit (depth + 1)).or (checkElements items)) (.group frame items)
        (.done (.group { frame with holding := .listed } (elementsOf items)))
    | .listed =>
      .guarded (checkDepth limit (depth + 1)) (.group frame items)
        (let below := spliceItems limit (depth + 1) items
        if below.fault?.isNone then below.map fun items => .group frame (spliceEach items)
        else below.map (.group frame))

/-- Splices below each item of a list at the given depth; the items themselves stay. -/
def spliceItems (limit depth : Int) : List Item → Progress (List Item)
  | [] => .done []
  | item :: rest => .cons (spliceBelow limit depth item) rest (spliceItems limit depth rest)

end

/-- Splices below the items of a root; `spliceEach` of the result are its new items. -/
def spliceAll (limit : Int) (items : List Item) : Progress (List Item) :=
  .guarded (checkDepth limit 0) items (spliceItems limit 0 items)

end Motion.Item
