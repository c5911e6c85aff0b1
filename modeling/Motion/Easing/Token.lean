import Motion.Data.Basic
import Motion.Text.Digit
import Motion.Text.WordCharacter

/-!
Tokens: how expressions refer to easing programs and to other resources. The token of an easing is
`@ease` followed by digits, as many as there are; any reference is an `@` followed by a word
character.
-/

set_option autoImplicit false
set_option relaxedAutoImplicit false

namespace Motion

/-- What stands in front of the name of a resource in a token. -/
def referenceMark : Char := '@'

/-- What the names of easings begin with. -/
def easeStem : List Char := "ease".toList

/-- What the tokens of easings begin with. -/
def tokenStem : List Char := referenceMark :: easeStem

/-- The name of the easing with a number. -/
def easeName (n : Nat) : String :=
  String.ofList (easeStem ++ Nat.toDigits 10 n)

/-- The token for a name. -/
def tokenOf (name : String) : String :=
  String.ofList (referenceMark :: name.toList)

/-- The name that a token stands for; a name stands for itself. -/
def nameOf (token : String) : String :=
  String.ofList (token.toList.dropWhile (· == referenceMark))

/-- The token of an easing with which a text begins. -/
def leadingToken? (s : List Char) : Option (List Char) :=
  let digits := (s.drop tokenStem.length).takeWhile Text.isDigit
  if tokenStem.isPrefixOf s && !digits.isEmpty then some (tokenStem ++ digits) else none

/-- The tokens of easings in a text, from left to right. No token begins within another one. -/
def tokensIn : List Char → List String
  | [] => []
  | c :: rest =>
    match leadingToken? (c :: rest) with
    | some token => String.ofList token :: tokensIn rest
    | none => tokensIn rest

/-- Whether a text refers to a resource. -/
def hasReference : List Char → Bool
  | [] => false
  | c :: rest =>
    (c == referenceMark && rest.head?.any Text.isWordCharacter) || hasReference rest

namespace Data

mutual

/-- Whether any text within a value, keys apart, refers to a resource. -/
def refersToResource : Data → Bool
  | .str s => hasReference s.toList
  | .list items => refersInList items
  | .obj members => refersInMembers members
  | _ => false

def refersInList : List Data → Bool
  | [] => false
  | item :: rest => item.refersToResource || refersInList rest

def refersInMembers : List (String × Data) → Bool
  | [] => false
  | (_, value) :: rest => value.refersToResource || refersInMembers rest

end

end Data

end Motion
