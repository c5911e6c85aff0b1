import Motion.Data.Entries
import Motion.Number.Basic
import Motion.Text.Symbol

/-!
The data of documents: null, truth values, numbers, texts, lists and objects. A text is kept as
characters (`Text.keep`); an object is a list of members in order. Scene trees, animated properties
and settings all arrive as `Data`.
-/

set_option autoImplicit false
set_option relaxedAutoImplicit false

namespace Motion

/-- A value of a document. -/
inductive Data where
  | null
  | bool (value : Bool)
  | num (value : Number)
  | str (value : String)
  | list (items : List Data)
  | obj (members : List (String × Data))
deriving Repr, BEq, Inhabited

/-- The members of an object. -/
abbrev Members := Entries String Data

namespace Data

/-- The members of an object. Anything else has none. -/
def members? : Data → Option Members
  | .obj members => some members
  | _ => none

/-- The member of an object under a key. -/
def get? (key : String) : Data → Option Data
  | .obj members => Entries.get? members key
  | _ => none

/-- Whether a value counts as given: null, false, zero, and empty texts, lists and objects do
not. -/
def isTruthy : Data → Bool
  | .null => false
  | .bool b => b
  | .num n => !n.same 0
  | .str s => !s.isEmpty
  | .list items => !items.isEmpty
  | .obj members => !members.isEmpty

/-- What a walk over the value meets: the items of a list, the symbols of a text, the keys of an
object. The other values cannot be walked. -/
def elements? : Data → Option (List Data)
  | .list items => some items
  | .str s => some ((Text.symbols s.toList).map fun x => .str (String.ofList x.kept))
  | .obj members => some (members.map fun member => .str member.1)
  | _ => none

end Data

end Motion
