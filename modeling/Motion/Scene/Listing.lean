import Motion.Scene.Item

/-!
Every group gets a list of items: a group that holds a single value in their place holds the list of
that value instead.
-/

set_option autoImplicit false
set_option relaxedAutoImplicit false

namespace Motion.Item

mutual

/-- Makes lists of the items below an item that is itself at the given depth. -/
def listBelow (limit depth : Int) : Item → Progress Item
  | .leaf value => .done (.leaf value)
  | .group frame items =>
    if frame.holding = .absent then .done (.group frame items)
    else
      .guarded (checkDepth limit (depth + 1)) (.group frame items)
        ((listEach limit (depth + 1) items).map (.group { frame with holding := .listed }))

/-- Makes lists of the items below each item of a list at the given depth. -/
def listEach (limit depth : Int) : List Item → Progress (List Item)
  | [] => .done []
  | item :: rest =>
    .cons (listBelow limit depth item) rest (listEach limit depth rest)

end

/-- Makes lists of the items everywhere below the items of a root. -/
def listAll (limit : Int) (items : List Item) : Progress (List Item) :=
  .guarded (checkDepth limit 0) items (listEach limit 0 items)

end Motion.Item
