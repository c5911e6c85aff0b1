import Motion.Text.Quoted
import Motion.Text.Symbol

/-!
Quoted strings of JSON. A written string is ASCII: other symbols are escaped by their UTF-16 units.
A read string may escape any unit. The two units of a surrogate pair are one character; a unit that
is only half of a pair is a symbol of its own, so that a written string has the units of the string
that was read.
-/

set_option autoImplicit false
set_option relaxedAutoImplicit false

namespace Motion.Json

/-- Whether a unit is the first half of a surrogate pair. -/
def isHighHalf (unit : Nat) : Bool :=
  0xD800 ≤ unit && unit < 0xDC00

/-- Whether a unit is the second half of a surrogate pair. -/
def isLowHalf (unit : Nat) : Bool :=
  0xDC00 ≤ unit && unit < 0xE000

/-- The character of a surrogate pair. -/
def ofHalves (high low : Nat) : Char :=
  Char.ofNat (0x10000 + (high - 0xD800) * 0x400 + (low - 0xDC00))

/-- The UTF-16 units of a character. -/
def units (c : Char) : List Nat :=
  if c.toNat < 0x10000 then [c.toNat]
  else
    let offset := c.toNat - 0x10000
    [0xD800 + offset / 0x400, 0xDC00 + offset % 0x400]

/-- A unit as an escape. -/
def escapedUnit (unit : Nat) : List Char :=
  '\\' :: 'u' :: Text.hexadecimal 4 unit

/-- A character inside quotes. -/
def escapeCharacter (c : Char) : List Char :=
  if c = '"' ∨ c = '\\' then ['\\', c]
  else if c = '\n' then ['\\', 'n']
  else if c = '\r' then ['\\', 'r']
  else if c = '\t' then ['\\', 't']
  else if c = '\x0c' then ['\\', 'f']
  else if c = '\x08' then ['\\', 'b']
  else if 0x20 ≤ c.toNat && c.toNat < 0x7F then [c]
  else (units c).flatMap escapedUnit

/-- A symbol inside quotes. -/
def escapeSymbol : Text.Symbol → List Char
  | .char c => escapeCharacter c
  | .half number => escapedUnit (Text.firstUnit + number.val)

/-- A kept text inside quotes. -/
def escape (s : List Char) : List Char :=
  (Text.symbols s).flatMap escapeSymbol

/-- The kept text in quotes. -/
def quoted (s : List Char) : List Char :=
  '"' :: escape s ++ ['"']

/-- A part of a quoted string: a character, or a unit that was escaped by number. -/
inductive Piece where
  | char (c : Char)
  | unit (n : Nat)
deriving DecidableEq, Repr

/-- The symbols of the parts of a string. -/
def joinPieces : List Piece → List Text.Symbol
  | [] => []
  | .char c :: rest => .char c :: joinPieces rest
  | .unit high :: .unit low :: rest =>
    if isHighHalf high && isLowHalf low then .char (ofHalves high low) :: joinPieces rest
    else .ofUnit high :: joinPieces (.unit low :: rest)
  | .unit n :: rest => .ofUnit n :: joinPieces rest

/-- The kept text of the parts of a string. -/
def textOf (pieces : List Piece) : String :=
  String.ofList ((joinPieces pieces).flatMap Text.Symbol.kept)

/-- What a short escape stands for. -/
def ofShortEscape? (c : Char) : Option Char :=
  if c = '"' ∨ c = '\\' ∨ c = '/' then some c
  else if c = 'b' then some '\x08'
  else if c = 'f' then some '\x0c'
  else if c = 'n' then some '\n'
  else if c = 'r' then some '\r'
  else if c = 't' then some '\t'
  else none

/-- The value of a hexadecimal digit. -/
def hexValue? (c : Char) : Option Nat :=
  if '0' ≤ c ∧ c ≤ '9' then some (c.toNat - '0'.toNat)
  else if 'a' ≤ c ∧ c ≤ 'f' then some (c.toNat - 'a'.toNat + 10)
  else if 'A' ≤ c ∧ c ≤ 'F' then some (c.toNat - 'A'.toNat + 10)
  else none

/-- The number of hexadecimal digits. -/
def hexNumber? (digits : List Char) : Option Nat :=
  digits.foldlM (fun n c => (hexValue? c).map (16 * n + ·)) 0

/-- The parts of a string from behind its opening quote, and what follows the closing one. Control
characters have to be escaped. -/
def pieces? : List Char → Option (List Piece × List Char)
  | [] => none
  | c :: rest =>
    if c = '"' then some ([], rest)
    else if c = '\\' then
      match rest with
      | 'u' :: p :: q :: r :: s :: rest => do
        let unit ← hexNumber? [p, q, r, s]
        let (more, rest) ← pieces? rest
        return (.unit unit :: more, rest)
      | d :: rest => do
        let short ← ofShortEscape? d
        let (more, rest) ← pieces? rest
        return (.char short :: more, rest)
      | [] => none
    else if c.toNat < 0x20 then none
    else do
      let (more, rest) ← pieces? rest
      return (.char c :: more, rest)

end Motion.Json
