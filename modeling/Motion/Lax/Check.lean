import Motion.Data.Basic
import Motion.Lax.Numeral

/-!
Lax checks of data. The issues come in the order of the places. Numbers may come as texts, truth
values as numbers or words, and whole numbers as binary64 numbers.
-/

set_option autoImplicit false
set_option relaxedAutoImplicit false

namespace Motion

namespace Checked

variable {α β : Type}

/-- A check of a part, seen from the whole. -/
def under (step : Step) : Checked α → Checked α
  | .ok a => .ok a
  | .error issues => .error (issues.map (Issue.under step))

/-- Applies a checked function to a checked value; the issues of both are kept, in this order. -/
def apply (f : Checked (α → β)) (x : Checked α) : Checked β :=
  match f, x with
  | .ok f, .ok a => .ok (f a)
  | .ok _, .error issues => .error issues
  | .error issues, .ok _ => .error issues
  | .error issues, .error more => .error (issues ++ more)

end Checked

namespace Check

variable {α : Type}

/-- Reads a text that holds no half of a surrogate pair. -/
def whole (text : String) (read : List Char → Checked α) : Checked α :=
  if Text.isWhole text.toList then read text.toList else Checked.fail .stringUnicode

/-- A binary64 number: a number, a truth value as 0 or 1, or a numeral. -/
def float : Data → Checked Binary64
  | .num n =>
    match n.toBinary64? with
    | some x => .ok x
    | none => Checked.fail .floatType
  | .bool b => .ok (Binary64.ofRat (if b then 1 else 0))
  | .str s => whole s fun text =>
    match Numeral.lenient? text with
    | some x => .ok x
    | none => Checked.fail .floatParsing
  | _ => Checked.fail .floatType

/-- The greatest magnitude of the integers of 64 bits. -/
def wordBound : Int := 0x8000000000000000

/-- The integer that a binary64 number equals, which has to lie strictly within the bounds. -/
def wholeOf (x : Binary64) : Checked Int :=
  if x.isFinite then
    match x.toInt? with
    | some i => if -wordBound < i ∧ i < wordBound then .ok i else Checked.fail .intParsingSize
    | none => Checked.fail .intFromFloat
  else Checked.fail .finiteNumber

/-- An integer: one of any size, a whole binary64 number, a truth value as 0 or 1, or a numeral. -/
def int : Data → Checked Int
  | .num (.int i) => .ok i
  | .num (.float x) => wholeOf x
  | .bool b => .ok (if b then 1 else 0)
  | .str s => whole s fun text =>
    match Numeral.lenientInt text with
    | .ok i => .ok i
    | .error kind => Checked.fail kind
  | _ => Checked.fail .intType

/-- An integer that is not too small. -/
def intFrom (least : Int) (value : Data) : Checked { i : Int // least ≤ i } :=
  (int value).bind fun i => if h : least ≤ i then .ok ⟨i, h⟩ else Checked.fail .greaterThanEqual

/-- An integer within bounds. -/
def intWithin (least greatest : Int) (value : Data) :
    Checked { i : Int // least ≤ i ∧ i ≤ greatest } :=
  (intFrom least value).bind fun ⟨i, hi⟩ =>
    if h : i ≤ greatest then .ok ⟨i, hi, h⟩ else Checked.fail .lessThanEqual

/-- The words for false. -/
def falseWords : List String := ["0", "off", "f", "false", "n", "no"]

/-- The words for true. -/
def trueWords : List String := ["1", "on", "t", "true", "y", "yes"]

/-- The integer of 64 bits that a number equals. -/
def word? : Number → Option Int
  | .int i => if -wordBound ≤ i ∧ i < wordBound then some i else none
  | .float x => (wholeOf x).toOption

/-- A truth value: itself, 0 or 1, or a word for it in any case. A number that is no integer of 64
bits is not even of the right type. -/
def bool : Data → Checked Bool
  | .bool b => .ok b
  | .num n =>
    match word? n with
    | some 0 => .ok false
    | some 1 => .ok true
    | some _ => Checked.fail .boolParsing
    | none => Checked.fail .boolType
  | .str s => whole s fun text =>
    let word := String.ofList (text.map Char.toLower)
    if falseWords.contains word then .ok false
    else if trueWords.contains word then .ok true
    else Checked.fail .boolParsing
  | _ => Checked.fail .boolType

def string : Data → Checked String
  | .str s => .ok s
  | _ => Checked.fail .stringType

/-- Any value at all. -/
def anything (value : Data) : Checked Data :=
  .ok value

/-- Null or a value that passes a check. -/
def optional (check : Data → Checked α) : Data → Checked (Option α)
  | .null => .ok none
  | value => (check value).map some

/-- The items of a list from a position on. -/
def items (check : Data → Checked α) : Nat → List Data → Checked (List α)
  | _, [] => .ok []
  | n, item :: rest =>
    Checked.apply (((check item).under (.index n)).map List.cons) (items check (n + 1) rest)

def list (check : Data → Checked α) : Data → Checked (List α)
  | .list xs => items check 0 xs
  | _ => Checked.fail .listType

/-- A record read from the members of an object. -/
def record (check : Members → Checked α) : Data → Checked α
  | .obj members => check members
  | _ => Checked.fail .modelType

/-- A member that has to be there. -/
def required (members : Members) (name : String) (check : Data → Checked α) : Checked α :=
  match Entries.get? members name with
  | some value => (check value).under (.field name)
  | none => .error [⟨[.field name], .missing⟩]

/-- A member that may be left out. -/
def optionalMember (members : Members) (name : String) (fallback : α)
    (check : Data → Checked α) : Checked α :=
  match Entries.get? members name with
  | some value => (check value).under (.field name)
  | none => .ok fallback

end Check

end Motion
