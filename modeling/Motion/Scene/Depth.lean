import Motion.Data.Basic
import Motion.Fault

/-!
The depth of a scene tree. The items of the root are at depth 0, those of an object among them at
depth 1, and so on; only objects that have items open a further level.
-/

set_option autoImplicit false
set_option relaxedAutoImplicit false

namespace Motion

/-- The key of an object's kind. -/
def typeKey : String := "type"

/-- The key under which an object holds other objects. -/
def itemsKey : String := "items"

/-- The kind of objects that hold others and transform them. -/
def groupType : String := "group"

/-- How deep a walk may go before a tree counts as too deep. -/
def defaultDepthLimit : Int := 256

/-- The fault of a level that lies beyond the limit. -/
def checkDepth (limit depth : Int) : Option Fault :=
  if limit < depth then some (.tooDeep limit) else none

/-- The members of objects that have items. -/
def hasItems (members : Members) : Bool :=
  Entries.contains members itemsKey

namespace Data

mutual

/-- Whether some object below the value, which is itself at the given depth, has items at a depth
beyond the limit. -/
def exceeds (limit depth : Int) : Data → Bool
  | .obj members => exceedsItems limit depth members
  | _ => false

def exceedsItems (limit depth : Int) : List (String × Data) → Bool
  | [] => false
  | (key, .list items) :: rest =>
    if key = itemsKey then exceedsList limit depth items else exceedsItems limit depth rest
  | (key, .obj members) :: rest =>
    if key = itemsKey then
      hasItems members && (limit < depth + 1 || exceedsItems limit (depth + 1) members)
    else exceedsItems limit depth rest
  | (key, _) :: rest => if key = itemsKey then false else exceedsItems limit depth rest

def exceedsList (limit depth : Int) : List Data → Bool
  | [] => false
  | .obj members :: rest =>
    (hasItems members && (limit < depth + 1 || exceedsItems limit (depth + 1) members))
      || exceedsList limit depth rest
  | _ :: rest => exceedsList limit depth rest

end

/-- The fault of a tree that is nested deeper than the limit. -/
def checkTreeDepth (limit : Int) (tree : Data) : Except Fault Unit :=
  if tree.exceeds limit 0 then .error (.tooDeep limit) else .ok ()

end Data

end Motion
