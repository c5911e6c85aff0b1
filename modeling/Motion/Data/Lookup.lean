import Motion.Data.Basic
import Motion.Fault

/-!
Looking into data whose shape is not known, with a fault where a value cannot be looked into.
-/

set_option autoImplicit false
set_option relaxedAutoImplicit false

namespace Motion

/-- Whether a pattern stands somewhere in a text. -/
def occurs (pattern : List Char) : List Char → Bool
  | [] => pattern.isEmpty
  | c :: rest => pattern.isPrefixOf (c :: rest) || occurs pattern rest

namespace Data

/-- Whether a value is the text `s`. -/
def isText (s : String) : Data → Bool
  | .str t => t == s
  | _ => false

/-- Whether a value mentions a key: an object among its keys, a list among its items, a text as a
part. The other values cannot be asked. -/
def mentions (key : String) : Data → Except Fault Bool
  | .obj members => .ok (Entries.contains members key)
  | .list items => .ok (items.any (isText key))
  | .str s => .ok (occurs key.toList s.toList)
  | _ => .error .wrongType

/-- The member of an object that has to be there. -/
def member (key : String) : Data → Except Fault Data
  | .obj members =>
    match Entries.get? members key with
    | some value => .ok value
    | none => .error .noMember
  | _ => .error .wrongType

/-- The member of an object, or null if there is none. -/
def memberOrNull (key : String) : Data → Except Fault Data
  | .obj members => .ok ((Entries.get? members key).getD .null)
  | _ => .error .noMembers

end Data

end Motion
