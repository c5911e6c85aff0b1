import Motion.Scene.Binding

/-!
Merging values under the keys of a map, and dropping what does not show. Numbers merge into numbers
and texts into bindings; a value that cannot be merged leaves the map as it is. Properties with
their neutral value are dropped, and pivots as soon as nothing rotates or scales about them.
-/

set_option autoImplicit false
set_option relaxedAutoImplicit false

namespace Motion

variable {κ : Type} [DecidableEq κ] [HasFamily κ]

/-- The operator by which the values under a key merge. -/
def mergeOperator (key : κ) : Operator :=
  if (family? key).any Family.isMultiplicative then .mul else .add

/-- The value under a key; null counts as none. -/
def present? (entries : Entries κ Data) (key : κ) : Option Data :=
  match Entries.get? entries key with
  | some .null => none
  | other => other

/-- Merges a number into the number under a key, where a missing one counts as neutral. Nothing
happens if one of the two is not numeric, or for a division. -/
def mergeNumber (entries : Entries κ Data) (key : κ) (value : Data) (op : Option Operator) :
    Except Fault (Entries κ Data) :=
  let current := present? entries key
  match value.number?, current.map Data.number? with
  | none, _ => .ok entries
  | some _, some none => .ok entries
  | some operand, present =>
    let store (r : Option Number) : Except Fault (Entries κ Data) :=
      (inRange r).map fun n => Entries.put entries key (.num n.normalize)
    match op.getD (mergeOperator key) with
    | .add => store ((present.join.getD 0).add operand)
    | .sub => store ((present.join.getD 0).sub operand)
    | .mul => store ((present.join.getD 1).mul operand)
    | .div => .ok entries

/-- Whether a value may be written as an operand: it is no integer with too many digits. -/
def isWritableOperand : Data → Bool
  | .num n => n.isWritable
  | _ => true

/-- The entries with a text joined to the binding under a key. A value that is not given, such as
zero or an empty text, counts as missing. Nothing happens if one of the two has no bare
expression. -/
def joinText (entries : Entries κ Data) (key : κ) (value : Data) (op : Option Operator) :
    Entries κ Data :=
  let current := (Entries.get? entries key).getD .null
  let operator := op.getD (mergeOperator key)
  let present := operandText current (some operator)
  let operand := operandText value (some operator)
  let store (expression : List Char) : Entries κ Data :=
    Entries.put entries key (.str (Scalar.binding (String.ofList expression)))
  if operand.isEmpty || (current.isTruthy && present.isEmpty) then entries
  else if current.isTruthy then store (present ++ operator.symbol.toList ++ operand)
  else if operator = .sub then store ('-' :: operand)
  else store operand

/-- Merges a text into the binding under a key (`joinText`), if both may be written. -/
def mergeText (entries : Entries κ Data) (key : κ) (value : Data) (op : Option Operator) :
    Except Fault (Entries κ Data) := do
  usable (isWritableOperand ((Entries.get? entries key).getD .null) && isWritableOperand value)
  return joinText entries key value op

/-- Whether a key holds the neutral value of its family. -/
def isNeutral (key : κ) (value : Data) : Bool :=
  match (family? key).bind Family.neutral?, value.number? with
  | some neutral, some n => n.same (.int neutral)
  | _, _ => false

/-- Whether a property that acts about the pivot is among the keys. -/
def usesPivot (entries : Entries κ Data) : Bool :=
  entries.any fun entry =>
    match family? entry.1 with
    | some .rotation => true
    | some .scale => true
    | _ => false

/-- Whether an entry shows: it is not neutral, and it is no pivot unless the pivot is used. -/
def shows (pivotUsed : Bool) (entry : κ × Data) : Bool :=
  !isNeutral entry.1 entry.2 && (pivotUsed || !decide (family? entry.1 = some .pivot))

/-- Whether the pivot is used once the neutral entries are gone. -/
def pivotUsed (entries : Entries κ Data) : Bool :=
  usesPivot (entries.filter fun entry => !isNeutral entry.1 entry.2)

/-- The entries without neutral values, and without pivots if nothing is left that acts about
them. -/
def prune (entries : Entries κ Data) : Entries κ Data :=
  entries.filter (shows (pivotUsed entries))

/-- Whether a key is for private use. -/
def isPrivate (key : String) : Bool :=
  key.toList.head? == some '_'

def Data.isNull : Data → Bool
  | .null => true
  | _ => false

/-- Whether a member is for others to see: its key is not private and its value not null. -/
def isPublic (member : String × Data) : Bool :=
  !isPrivate member.1 && !member.2.isNull

/-- The members without null values and private keys. -/
def stripPrivate (members : Members) : Members :=
  members.filter isPublic

end Motion
