import Motion.Number.Reading
import Motion.Scalar.Basic
import Motion.Scene.Property

/-!
What kind of value a property holds. A value is numeric if it is a number or a text that denotes
one; it is a simple binding if it is a text in the braces of a data binding made of names, numbers,
operators, parentheses and blanks only; everything else is special.

The bare expression of a value (`operandText`) stands in parentheses where the operator next to it
needs them. Whether an expression has a sum at its top level is decided by its parentheses alone.
-/

set_option autoImplicit false
set_option relaxedAutoImplicit false

namespace Motion

namespace Data

/-- The number that a value is or denotes. NaN does not count as one. -/
def number? : Data → Option Number
  | .num n => if n.isNaN then none else some n.normalize
  | .str s =>
    match Numeral.wide? s.toList with
    | some x => if x.isNaN then none else some (Number.float x).normalize
    | none => none
  | _ => none

/-- The value with whole numbers as integers. -/
def normalized : Data → Data
  | .num n => .num n.normalize
  | other => other

/-- The value with a text read as the number that it has to denote. -/
def asNumber : Data → Except Fault Data
  | .str s =>
    match Numeral.wide? s.toList with
    | some x => .ok (.num (Number.float x).normalize)
    | none => .error .badValue
  | other => .ok other.normalized

def isNumeric (value : Data) : Bool :=
  value.number?.isSome

/-- The characters of simple bindings. -/
def isBindingCharacter (c : Char) : Bool :=
  c.isAlphanum || "_+-*/@().".toList.contains c || Text.isBlank c

/-- The text between the braces of a simple binding. -/
def bindingInterior? (s : List Char) : Option (List Char) :=
  match s with
  | '$' :: '\x7b' :: rest =>
    if rest.getLast? = some '\x7d' ∧ rest.dropLast.all isBindingCharacter then some rest.dropLast
    else none
  | _ => none

/-- The expression of a simple binding. -/
def interior? : Data → Option (List Char)
  | .str s => bindingInterior? s.toList
  | _ => none

def isSimpleBinding (value : Data) : Bool :=
  value.interior?.isSome

/-- The kind of a value. -/
def kind (value : Data) : Kind :=
  if value.isNumeric then .numeric
  else if value.isSimpleBinding then .binding
  else .special

/-- The value under its tag: a number for a numeric value, a binding without blanks. -/
def tagged (value : Data) : Data :=
  match value.number? with
  | some n => .num n
  | none =>
    match value with
    | .str s =>
      if value.isSimpleBinding then .str (String.ofList (Text.removeBlanks s.toList)) else value
    | _ => value

end Data

/-- Whether a plus or minus sign occurs where as many parentheses have been closed as opened. -/
def hasTopLevelSign : Int → List Char → Bool
  | _, [] => false
  | depth, c :: rest =>
    if c = '(' then hasTopLevelSign (depth + 1) rest
    else if c = ')' then hasTopLevelSign (depth - 1) rest
    else ((c = '+' || c = '-') && depth == 0) || hasTopLevelSign depth rest

/-- The bare expression of a value: of a number as expressions write it, of a numeric text the text
itself, of a simple binding its interior. -/
def bareExpression? (value : Data) : Option (List Char) :=
  match value, value.number? with
  | .num n, some _ => some n.textChars
  | .str s, some _ => some s.toList
  | _, _ => value.interior?

/-- Whether an expression needs parentheses as an operand: with a sign in front always, with a sign
at its top level in a product or a difference. -/
def needsParentheses (op : Option Operator) (expression : List Char) : Bool :=
  expression.head? == some '-'
    || ((op == some .mul || op == some .sub) && hasTopLevelSign 0 expression)

/-- The bare expression of a value as an operand, without blanks; empty if the value cannot take
part in arithmetic. -/
def operandText (value : Data) (op : Option Operator) : List Char :=
  match bareExpression? value with
  | none => []
  | some expression =>
    let dense := Text.removeBlanks expression
    if needsParentheses op dense then '(' :: dense ++ [')'] else dense

end Motion
