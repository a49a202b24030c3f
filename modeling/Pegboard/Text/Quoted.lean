import Pegboard.Codepoint.Printable
import Pegboard.Text.Basic

/-!
# Texts in quotes, for a reader

A message shows a text between quotes, so that a blank or a control in it can be
seen.  The quotes are single ones, unless the text holds a single quote and no
double quote.  The quote in use and the backslash get a backslash, line feed,
carriage return and tab have a letter, and every other code point that is not
printable is written with its number: two, four or eight hexadecimal digits.
-/

namespace Pegboard.Text

/-- The last `width` hexadecimal digits of a number, in lower case. -/
def hexDigits : (width : Nat) → Nat → Text
  | 0, _ => []
  | width + 1, n => hexDigits width (n / 16) ++ [.char (Nat.digitChar (n % 16))]

/-- A code point by its number: `\x`, `\u` or `\U` and as many digits as needed. -/
def numbered (n : Nat) : Text :=
  if n < 0x100 then '\\' :: .char 'x' :: hexDigits 2 n
  else if n < 0x10000 then '\\' :: .char 'u' :: hexDigits 4 n
  else '\\' :: .char 'U' :: hexDigits 8 n

/-- One code point between quotes of the given kind. -/
def quotedChar (quote c : Codepoint) : Text :=
  if c = quote ∨ c = '\\' then ['\\', c]
  else if c = '\n' then ['\\', 'n']
  else if c = '\r' then ['\\', 'r']
  else if c = '\t' then ['\\', 't']
  else if Codepoint.isPrintable c.toNat then [c]
  else numbered c.toNat

/-- The quote in use for a text. -/
def quoteOf (text : Text) : Codepoint :=
  if Codepoint.char '\'' ∈ text ∧ Codepoint.char '"' ∉ text then '"' else '\''

/-- A text in quotes. -/
def quoted (text : Text) : Text :=
  quoteOf text :: (text.flatMap (quotedChar (quoteOf text)) ++ [quoteOf text])

example : quoted "it's".toText = "\"it's\"".toText := by decide
example : quoted "a\n\x07".toText = "'a\\n\\x07'".toText := by decide

end Pegboard.Text
