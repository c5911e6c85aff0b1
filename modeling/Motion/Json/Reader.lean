import Motion.Data.Basic
import Motion.Json.Escape
import Motion.Number.Reading

/-!
Reading a document from JSON. Beside the standard's values the names `NaN`, `Infinity` and
`-Infinity` are numbers. A number without point and exponent is an integer; one with too many digits
ends the reading as soon as it is met. Of members with one key the first gives the place and the
last the value.

The reading of a value takes it off the front of a text. Each step takes at least one character, so
the length of the text bounds the steps.
-/

set_option autoImplicit false
set_option relaxedAutoImplicit false

namespace Motion.Json

/-- Why a text cannot be read as a document. -/
inductive ReadFault where
  | malformed
  /-- An integer has too many digits. -/
  | tooLong
deriving DecidableEq, Repr

/-- What reading takes off the front of a text, and what follows it. -/
abbrev Taken (α : Type) := Except ReadFault (α × List Char)

/-- What is taken if the text begins with it. -/
def Taken.ofOption {α : Type} : Option (α × List Char) → Taken α
  | some taken => .ok taken
  | none => .error .malformed

/-- Whether a character may stand between values. -/
def isSpace (c : Char) : Bool :=
  c = ' ' || c = '\t' || c = '\n' || c = '\r'

/-- The text from its first character on that is no space. -/
def skipSpace (s : List Char) : List Char :=
  s.dropWhile isSpace

/-- The values that are written as a name. -/
def names : List (List Char × Data) :=
  [("null".toList, .null), ("true".toList, .bool true), ("false".toList, .bool false),
    ("NaN".toList, .num (.float .nan)),
    ("Infinity".toList, .num (.float (.infinite false))),
    ("-Infinity".toList, .num (.float (.infinite true)))]

/-- Takes a named value off the front of a text. -/
def name? (s : List Char) : Option (Data × List Char) :=
  names.findSome? fun (name, value) =>
    if name.isPrefixOf s then some (value, s.drop name.length) else none

/-- How many characters at the front of a text are a fraction: a point and digits. -/
def fractionLength : List Char → Nat
  | '.' :: rest =>
    let digits := rest.takeWhile Char.isDigit
    if digits.isEmpty then 0 else digits.length + 1
  | _ => 0

/-- How many characters at the front of a text are an exponent. -/
def exponentLength : List Char → Nat
  | c :: rest =>
    if c = 'e' ∨ c = 'E' then
      let digits := (Numeral.takeSign rest).2
      let count := (digits.takeWhile Char.isDigit).length
      if count = 0 then 0 else 1 + (rest.length - digits.length) + count
    else 0
  | [] => 0

/-- How many characters at the front of a text are the whole part of a number. It has no zero in
front of other digits. -/
def wholeLength : List Char → Nat
  | '0' :: _ => 1
  | s => (s.takeWhile Char.isDigit).length

/-- Takes a number off the front of a text. -/
def number (s : List Char) : Taken Number :=
  let (negative, body) :=
    match s with
    | '-' :: rest => (true, rest)
    | s => (false, s)
  let whole := wholeLength body
  let fraction := fractionLength (body.drop whole)
  let exponent := exponentLength (body.drop (whole + fraction))
  let literal := body.take (whole + fraction + exponent)
  let rest := body.drop (whole + fraction + exponent)
  if whole = 0 then .error .malformed
  else if fraction + exponent = 0 then
    if Numeral.digitLimit < whole then .error .tooLong
    else .ok (.int (Numeral.signed negative (Numeral.ofDigits literal)), rest)
  else Taken.ofOption
    ((Numeral.decimal? literal).map fun x => (.float (Numeral.nearest negative x), rest))

mutual

/-- Takes a value off the front of a text, in at most as many steps as given. -/
def value : Nat → List Char → Taken Data
  | 0, _ => .error .malformed
  | _ + 1, [] => .error .malformed
  | steps + 1, c :: rest =>
    if c = '"' then
      Taken.ofOption ((pieces? rest).map fun (pieces, rest) => (.str (textOf pieces), rest))
    else if c = '[' then
      match skipSpace rest with
      | ']' :: rest => .ok (.list [], rest)
      | rest => (items steps rest).map fun (items, rest) => (.list items, rest)
    else if c = '\x7b' then
      match skipSpace rest with
      | '\x7d' :: rest => .ok (.obj [], rest)
      | rest => (members steps rest).map fun (members, rest) =>
        (.obj (Entries.putAll [] members), rest)
    else
      match name? (c :: rest) with
      | some taken => .ok taken
      | none => (number (c :: rest)).map fun (n, rest) => (.num n, rest)

/-- Takes the items of a list off the front of a text, with the bracket behind them. -/
def items : Nat → List Char → Taken (List Data)
  | 0, _ => .error .malformed
  | steps + 1, s =>
    match value steps s with
    | .error fault => .error fault
    | .ok (item, rest) =>
      match skipSpace rest with
      | ']' :: rest => .ok ([item], rest)
      | ',' :: rest =>
        (items steps (skipSpace rest)).map fun (items, rest) => (item :: items, rest)
      | _ => .error .malformed

/-- Takes the members of an object off the front of a text, with the brace behind them. -/
def members : Nat → List Char → Taken (List (String × Data))
  | 0, _ => .error .malformed
  | steps + 1, '"' :: s =>
    match pieces? s with
    | none => .error .malformed
    | some (pieces, rest) =>
      match skipSpace rest with
      | ':' :: rest =>
        match value steps (skipSpace rest) with
        | .error fault => .error fault
        | .ok (value, rest) =>
          match skipSpace rest with
          | '\x7d' :: rest => .ok ([(textOf pieces, value)], rest)
          | ',' :: rest =>
            (members steps (skipSpace rest)).map fun (members, rest) =>
              ((textOf pieces, value) :: members, rest)
          | _ => .error .malformed
      | _ => .error .malformed
  | _ + 1, _ => .error .malformed

end

/-- The document that a text holds. -/
def read (s : List Char) : Except ReadFault Data := do
  let (document, rest) ← value (2 * s.length + 1) (skipSpace s)
  if (skipSpace rest).isEmpty then return document else throw .malformed

end Motion.Json
