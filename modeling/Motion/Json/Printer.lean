import Motion.Data.Shown
import Motion.Json.Escape

/-!
Writing a document as JSON. Each item and each member has a line of its own, indented by two spaces
for each level; empty lists and objects stay on one line.
-/

set_option autoImplicit false
set_option relaxedAutoImplicit false

namespace Motion.Json

/-- The start of a line at a level. -/
def newLine (level : Nat) : List Char :=
  '\n' :: List.replicate (2 * level) ' '

/-- Whether a document may be printed. -/
def isWritable (document : Data) : Bool :=
  document.isWritable

mutual

/-- A value whose parts are at the level after the given one. -/
def printed (level : Nat) : Data → List Char
  | .null => "null".toList
  | .bool true => "true".toList
  | .bool false => "false".toList
  | .num n => n.laidOut .document
  | .str s => quoted s.toList
  | .list [] => ['[', ']']
  | .list (item :: rest) =>
    '[' :: newLine (level + 1) ++ printed (level + 1) item ++ printedItems (level + 1) rest
      ++ newLine level ++ [']']
  | .obj [] => ['\x7b', '\x7d']
  | .obj ((key, value) :: rest) =>
    '\x7b' :: newLine (level + 1) ++ quoted key.toList ++ ':' :: ' ' :: printed (level + 1) value
      ++ printedMembers (level + 1) rest ++ newLine level ++ ['\x7d']

/-- The items of a list at a level that follow its first. -/
def printedItems (level : Nat) : List Data → List Char
  | [] => []
  | item :: rest => ',' :: newLine level ++ printed level item ++ printedItems level rest

/-- The members of an object at a level that follow its first. -/
def printedMembers (level : Nat) : List (String × Data) → List Char
  | [] => []
  | (key, value) :: rest =>
    ',' :: newLine level ++ quoted key.toList ++ ':' :: ' ' :: printed level value
      ++ printedMembers level rest

end

/-- The text of a document. -/
def print (document : Data) : String :=
  String.ofList (printed 0 document)

end Motion.Json
