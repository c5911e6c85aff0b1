import Motion.Number.Reading
import Motion.Record.Issue

/-!
Numerals in the texts of records. Beside the plain form a numeral may have white space around it and
underscores within it; an integer may also begin with zeros and end in a point and zeros.

Underscores may be left out where none stands at an end of the text and no two stand together; they
need not stand between digits. The zeros in front of an integer go together with the underscores
among them, and what follows them may have a minus sign of its own.
-/

set_option autoImplicit false
set_option relaxedAutoImplicit false

namespace Motion.Numeral

/-- The text without white space around it. -/
def bare (s : List Char) : List Char :=
  Text.trimBy Text.isWhiteSpace s

/-- Whether two underscores stand together. -/
def hasDoubleUnderscore : List Char → Bool
  | '_' :: '_' :: _ => true
  | _ :: rest => hasDoubleUnderscore rest
  | [] => false

/-- The text without its underscores, if it has some that may be left out. -/
def dropUnderscores? (s : List Char) : Option (List Char) :=
  if s.contains '_' && s.head? != some '_' && s.getLast? != some '_' && !hasDoubleUnderscore s then
    some (s.filter (· ≠ '_'))
  else none

/-- The number that a text denotes: with white space around it, or with underscores within it. -/
def lenient? (s : List Char) : Option Binary64 :=
  match plain? (bare s) with
  | some x => some x
  | none => (dropUnderscores? s).bind plain?

/-- An integer in plain form: 0, or digits without a zero in front, behind a minus sign or nothing.
Where the digits are too many it does not matter what follows them. -/
def plainInt (s : List Char) : Except IssueKind Int :=
  let (negative, body) :=
    match s with
    | '-' :: rest => (true, rest)
    | s => (false, s)
  let digits := body.takeWhile Char.isDigit
  match digits with
  | [] => .error .intParsing
  | '0' :: _ => if body = ['0'] then .ok 0 else .error .intParsing
  | _ =>
    if digitLimit < digits.length then .error .intParsingSize
    else if digits.length < body.length then .error .intParsing
    else .ok (signed negative (ofDigits digits))

/-- What follows zeros and underscores at the front of a text, where the character before it is the
given one: digits or a minus sign. A point needs the zero before it, and so does the end. -/
def afterZeros? (before : Char) : List Char → Option (List Char)
  | [] => some [before]
  | c :: rest =>
    if c = '0' ∨ c = '_' then afterZeros? c rest
    else if c.isDigit ∨ c = '-' then some (c :: rest)
    else if c = '.' then some (before :: c :: rest)
    else none

/-- The text without zeros in front of its digits. -/
def dropZeros? : List Char → Option (List Char)
  | '0' :: rest => afterZeros? '0' rest
  | c :: rest => if c.isDigit then some (c :: rest) else none
  | [] => none

/-- The text without its sign, if that is a plus, and without zeros in front of its digits. -/
def dropFront? : List Char → Option (List Char)
  | '+' :: rest => dropZeros? rest
  | '-' :: rest => (dropZeros? rest).map ('-' :: ·)
  | s => dropZeros? s

/-- The text without its first point and what follows, if that is zeros. -/
def dropFraction (s : List Char) : List Char :=
  match s.dropWhile (· ≠ '.') with
  | '.' :: '0' :: zeros => if zeros.all (· == '0') then s.takeWhile (· ≠ '.') else s
  | _ => s

/-- The integer that a text denotes once what may be left out is left out. -/
def strippedInt? (s : List Char) : Option Int :=
  (dropFront? (bare s)).bind fun digits =>
    let whole := dropFraction digits
    (plainInt ((dropUnderscores? whole).getD whole)).toOption

/-- The integer that a text denotes in plain form, or else once what may be left out is left out.
Only the plain form can have too many digits. -/
def lenientInt (s : List Char) : Except IssueKind Int :=
  match plainInt s with
  | .error .intParsing =>
    match strippedInt? s with
    | some i => .ok i
    | none => .error .intParsing
  | reading => reading

end Motion.Numeral
