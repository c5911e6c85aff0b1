import Motion.Scene.Depth
import Motion.Scene.Progress

/-!
Dropping items without a type. What is left below the root are objects that have a type; those
without, and whatever they hold, served only while the document was built.
-/

set_option autoImplicit false
set_option relaxedAutoImplicit false

namespace Motion.Data

/-- Whether a value is an object that has a type. -/
def isTyped (value : Data) : Bool :=
  ((value.get? typeKey).getD .null).isTruthy

mutual

/-- Drops the items without a type below a value whose items are at the given depth. -/
def dropUntyped (limit depth : Int) : Data → Progress Data
  | .obj members => (dropInMembers limit depth members).map .obj
  | value => .done value

/-- Drops items without a type from the list under `items`, if there is one. -/
def dropInMembers (limit depth : Int) : List (String × Data) → Progress (List (String × Data))
  | [] => .done []
  | (key, .list items) :: rest =>
    if key = itemsKey then
      .guarded (checkDepth limit depth) ((key, .list items) :: rest)
        ((dropEach limit (depth + 1) items).map fun kept => (key, .list kept) :: rest)
    else (dropInMembers limit depth rest).map ((key, .list items) :: ·)
  | (key, value) :: rest =>
    if key = itemsKey then .done ((key, value) :: rest)
    else (dropInMembers limit depth rest).map ((key, value) :: ·)

/-- The typed items of a list, each without the untyped items below it. -/
def dropEach (limit depth : Int) : List Data → Progress (List Data)
  | [] => .done []
  | item :: rest =>
    if item.isTyped then
      .cons (dropUntyped limit depth item) (rest.filter isTyped) (dropEach limit depth rest)
    else dropEach limit depth rest

end

/-- Drops the items without a type everywhere below a document. -/
def dropUntypedItems (limit : Int) (document : Data) : Progress Data :=
  match document with
  | .obj _ => dropUntyped limit 0 document
  | _ => .stopped document .noMembers

end Motion.Data
