import Motion.Data.Lookup
import Motion.Notice
import Motion.Scene.Listing
import Motion.Scene.Push
import Motion.Scene.Splice
import Motion.Scene.Tagging

/-!
Collapsing a scene tree. All groups get lists of items; with merging, the transforms are tagged,
pushed downwards as far as they may be, and untagged; at last redundant groups are spliced out.

`collapseSafely` falls back to collapsing without merging where merging meets a fault. A tree that
is too deep is refused by both, and so is one whose groups are nested deeper than the walks, which are
recursive, have room for on the stack.
-/

set_option autoImplicit false
set_option relaxedAutoImplicit false

namespace Motion

/-- The stack that the walks of a collapse run on: how deep they may go, with and without merging. -/
structure CallStack where
  room : Bool → Nat
  merging_le : room true ≤ room false

/-- A stack with room for 1000 calls at once. Some of them are around the walks and some inside, where
merging needs a few more. -/
def CallStack.default : CallStack where
  room merge := if merge then 970 else 980
  merging_le := by decide

namespace Item

/-- Merges the transforms of groups into their only children. -/
def mergeTransforms (limit : Int) (items : List Item) : Except Fault (List Item) := do
  let tagged ← (tagAll limit items).toExcept
  let pushed ← (pushAll limit [] tagged).toExcept
  (untagAll limit pushed.value).toExcept

/-- The items of a root, collapsed. -/
def collapseItems (merge : Bool) (limit : Int) (items : List Item) : Except Fault (List Item) := do
  let listed ← (listAll limit items).toExcept
  let merged ← if merge then mergeTransforms limit listed else .ok listed
  let below ← (spliceAll limit merged).toExcept
  return spliceEach below

end Item

namespace Data

/-- The collapsed tree, where the walks have all the room they need. A root without items stays as it
is. -/
def collapse (merge : Bool) (limit : Int) (tree : Data) : Except Fault Data := do
  tree.checkTreeDepth limit
  if !(← tree.mentions itemsKey) then return tree
  match tree with
  | .obj members =>
    let items ← Item.collapseItems merge limit (Item.itemsOf members)
    return .obj (Entries.put members itemsKey (.list (Item.toList items)))
  | _ => .error .wrongType

/-- Whether a walk through the groups of a tree goes deeper than there is room for. All walks go as
deep as the one that makes lists of items. -/
def overruns (room : Nat) : Data → Bool
  | .obj members => (Item.listAll room (Item.itemsOf members)).fault?.isSome
  | _ => false

/-- The collapsed tree, unless the walks overrun the stack. The depth is checked without a walk. -/
def collapseOn (stack : CallStack) (merge : Bool) (limit : Int) (tree : Data) : Except Fault Data := do
  tree.checkTreeDepth limit
  if tree.overruns (stack.room merge) then .error .notCollapsible else collapse merge limit tree

/-- The collapsed tree, without merged transforms if merging meets a fault, and the reports on the
way. -/
def collapseSafely (merge : Bool) (limit : Int) (tree : Data) (stack : CallStack := .default) :
    List Notice × Except Fault Data :=
  let plainly (notices : List Notice) : List Notice × Except Fault Data :=
    match collapseOn stack false limit tree with
    | .ok result => (notices, .ok result)
    | .error (.tooDeep n) => (notices ++ [.collapsingFailed], .error (.tooDeep n))
    | .error _ => (notices ++ [.collapsingFailed], .error .notCollapsible)
  if merge then
    match collapseOn stack true limit tree with
    | .ok result => ([], .ok result)
    | .error (.tooDeep n) => ([.tooDeep limit], .error (.tooDeep n))
    | .error _ => plainly [.mergingFailed]
  else plainly []

end Data

end Motion
