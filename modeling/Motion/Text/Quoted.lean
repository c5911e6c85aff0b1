import Motion.Text.Printable
import Motion.Text.Symbol

/-!
Quoted text in messages. Single quotes stand around the text, or double ones where it holds a single
and no double quote. The quote itself, the backslash and characters that are not printed are
escaped.
-/

set_option autoImplicit false
set_option relaxedAutoImplicit false

namespace Motion.Text

/-- The lower-case hexadecimal digits of a number, with zeros in front up to a width. -/
def hexadecimal (width n : Nat) : List Char :=
  let digits := Nat.toDigits 16 n
  List.replicate (width - digits.length) '0' ++ digits

/-- The quote that stands around a text. -/
def quoteFor (s : List Char) : Char :=
  if s.contains '\'' && !s.contains '"' then '"' else '\''

/-- A character inside quotes. -/
def escapeCharacter (quote c : Char) : List Char :=
  if c = quote ∨ c = '\\' then ['\\', c]
  else if c = '\n' then ['\\', 'n']
  else if c = '\t' then ['\\', 't']
  else if c = '\r' then ['\\', 'r']
  else if isPrintable c then [c]
  else if c.toNat < 0x100 then '\\' :: 'x' :: hexadecimal 2 c.toNat
  else if c.toNat < 0x10000 then '\\' :: 'u' :: hexadecimal 4 c.toNat
  else '\\' :: 'U' :: hexadecimal 8 c.toNat

/-- A symbol inside quotes. -/
def escapeSymbol (quote : Char) : Symbol → List Char
  | .char c => escapeCharacter quote c
  | .half number => '\\' :: 'u' :: hexadecimal 4 (firstUnit + number.val)

/-- The kept text in quotes. -/
def quoted (s : List Char) : List Char :=
  let quote := quoteFor s
  quote :: (symbols s).flatMap (escapeSymbol quote) ++ [quote]

end Motion.Text
