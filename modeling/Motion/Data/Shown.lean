import Motion.Data.Basic
import Motion.Number.Text
import Motion.Text.Quoted

/-!
Data as a message shows it: texts in quotes, lists in brackets, objects in braces. A value that holds
an integer with too many digits is not to be shown, nor to be written (`Data.isWritable`).
-/

set_option autoImplicit false
set_option relaxedAutoImplicit false

namespace Motion

/-- Texts joined with a comma and a space. -/
def commaSeparated (texts : List (List Char)) : List Char :=
  [',', ' '].intercalate texts

namespace Data

mutual

/-- Whether a value may be shown or written: it holds no integer with too many digits. -/
def isWritable : Data → Bool
  | .num n => n.isWritable
  | .list items => areWritable items
  | .obj members => areWritableMembers members
  | _ => true

def areWritable : List Data → Bool
  | [] => true
  | item :: rest => isWritable item && areWritable rest

def areWritableMembers : List (String × Data) → Bool
  | [] => true
  | (_, value) :: rest => isWritable value && areWritableMembers rest

end

mutual

/-- The characters of the value in a message. -/
def shownChars : Data → List Char
  | .null => "None".toList
  | .bool b => if b then "True".toList else "False".toList
  | .num n => n.laidOut .message
  | .str s => Text.quoted s.toList
  | .list items => '[' :: commaSeparated (shownItems items) ++ [']']
  | .obj members => '\x7b' :: commaSeparated (shownMembers members) ++ ['\x7d']

def shownItems : List Data → List (List Char)
  | [] => []
  | item :: rest => item.shownChars :: shownItems rest

def shownMembers : List (String × Data) → List (List Char)
  | [] => []
  | (key, value) :: rest =>
    (Text.quoted key.toList ++ ':' :: ' ' :: value.shownChars) :: shownMembers rest

end

/-- The value as a message shows it. -/
def shown (value : Data) : String :=
  String.ofList value.shownChars

end Data

end Motion
