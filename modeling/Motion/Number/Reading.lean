import Motion.Number.Layout
import Motion.Text.Blank
import Motion.Text.Digit

/-!
Reading numbers. A decimal literal is digits with an optional point and an optional exponent; its
value is exact (`decimal?`) and is then rounded once. A plain numeral has a sign in front of it or
none, and may be one of the names `inf`, `infinity` and `nan` in any case. In a grouped numeral
single underscores may stand between two digits. The wide reading also takes blanks around the
numeral and the decimal digits of every script.
-/

set_option autoImplicit false
set_option relaxedAutoImplicit false

namespace Motion.Numeral

/-- The natural number that decimal digits denote. -/
def ofDigits (digits : List Char) : Nat :=
  digits.foldl (fun n c => 10 * n + (c.toNat - '0'.toNat)) 0

/-- How many digits an integer may have where it is read or written. -/
def digitLimit : Nat := 4300

/-- The integer with the given sign and magnitude. -/
def signed (negative : Bool) (magnitude : Nat) : Int :=
  if negative then -magnitude else magnitude

/-- Takes a leading sign off: whether it is a minus, and the rest. -/
def takeSign : List Char → Bool × List Char
  | '-' :: rest => (true, rest)
  | '+' :: rest => (false, rest)
  | s => (false, s)

/-- The exponent part of a literal; none at all is an exponent of 0. -/
def exponent? : List Char → Option Int
  | [] => some 0
  | c :: rest =>
    if c = 'e' ∨ c = 'E' then
      let (negative, digits) := takeSign rest
      if digits.isEmpty || !digits.all Char.isDigit then none
      else some (signed negative (ofDigits digits))
    else none

/-- The value of an unsigned decimal literal. There is a digit on at least one side of the point. -/
def decimal? (s : List Char) : Option Decimal :=
  let whole := s.takeWhile Char.isDigit
  let afterWhole := s.dropWhile Char.isDigit
  let (fraction, rest) :=
    match afterWhole with
    | '.' :: r => (r.takeWhile Char.isDigit, r.dropWhile Char.isDigit)
    | r => ([], r)
  if whole.isEmpty && fraction.isEmpty then none
  else (exponent? rest).map fun e => ⟨ofDigits (whole ++ fraction), e - fraction.length⟩

/-- The binary64 number nearest to a decimal. A decimal whose first digit stands 400 places or more
from the point is beyond the range, so that its power of ten need not be computed. -/
def nearest (negative : Bool) (x : Decimal) : Binary64 :=
  let point := x.exponent + Decimal.digitCount x.coefficient
  if x.coefficient = 0 ∨ point < -400 then Binary64.zero negative
  else if 400 < point then .infinite negative
  else Binary64.ofRatio negative x.toRat

/-- The text with the underscores taken out, each of which has to stand between two digits. The flag
tells whether a digit comes right before the text. -/
def joinGroups? : Bool → List Char → Option (List Char)
  | _, [] => some []
  | afterDigit, c :: rest =>
    if c = '_' then
      if afterDigit && (rest.head?.any Char.isDigit) then joinGroups? false rest else none
    else (joinGroups? c.isDigit rest).map (c :: ·)

/-- The number that a plain numeral denotes. -/
def plain? (s : List Char) : Option Binary64 :=
  let (negative, body) := takeSign s
  let name := String.ofList (body.map Char.toLower)
  if name = "inf" ∨ name = "infinity" then some (.infinite negative)
  else if name = "nan" then some .nan
  else (decimal? body).map (nearest negative)

/-- The number that a grouped numeral denotes. -/
def grouped? (s : List Char) : Option Binary64 :=
  (joinGroups? false s).bind plain?

/-- The text with the decimal digits of every script replaced by `0` to `9`. -/
def plainDigits (s : List Char) : List Char :=
  s.map fun c =>
    match Text.digitValue? c with
    | some d => Char.ofNat ('0'.toNat + d)
    | none => c

/-- The number that a text denotes in the wide reading. -/
def wide? (s : List Char) : Option Binary64 :=
  grouped? (plainDigits (Text.trim s))

/-- The integer that a text denotes in the wide reading: digits in groups, not more than the limit,
with an optional sign and with white space around them. -/
def int? (s : List Char) : Option Int :=
  (joinGroups? false (plainDigits (Text.trimBy Text.isWhiteSpace s))).bind fun joined =>
    let (negative, digits) := takeSign joined
    if digits.isEmpty || !digits.all Char.isDigit || digitLimit < digits.length then none
    else some (signed negative (ofDigits digits))

end Motion.Numeral
