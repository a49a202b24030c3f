import Pegboard.Platform

/-!
# Literals of the definition language

A literal is written between double quotes.  It is evaluated in two stages.  First
every line break that is not after a backslash is written as an escape.  Then the
escapes are decoded.  A backslash before a line break hides it.  An escape is one
of a few letters, one to three octal digits up to 377, `x`, `u` or `U` with two,
four or eight hexadecimal digits, or `N` with the name of a character in braces.  A
backslash before another ASCII character is refused, and so is a NUL anywhere;
before a character outside ASCII it stands for itself.

What is written has to be made of characters, so a surrogate between the quotes is
refused.  The number of a surrogate is not.

A node of some other grammar may hold anything where a literal is expected.  What is
not just one string in quotes is an expression like any other and left to the
platform.

A literal is written back with the escapes for the quote, the backslash, five
controls by letter and the other controls by number.
-/

namespace Pegboard.Literal

/-- The text with its bare line breaks written as escapes.  A pair of a backslash
and any character stays as it is. -/
def escapeBreaks : Text → Text
  | [] => []
  | [.char '\\'] => ['\\']
  | .char '\\' :: c :: rest => '\\' :: c :: escapeBreaks rest
  | c :: rest =>
    if c = '\n' then '\\' :: .char 'n' :: escapeBreaks rest
    else if c = '\r' then '\\' :: .char 'r' :: escapeBreaks rest
    else c :: escapeBreaks rest

/-- What a literal comes to. -/
inductive Value where
  /-- A string. -/
  | string (text : Text)
  /-- An error. -/
  | refused
  /-- What is written is not one string in quotes, whatever else it is. -/
  | foreign
  deriving DecidableEq, Repr

/-- A value with a text put in front of it, if it is a string. -/
def Value.prepend (text : Text) : Value → Value
  | string more => string (text ++ more)
  | refused => refused
  | foreign => foreign

/-- The names of characters with their code points. -/
abbrev NameTable := Text → Option Codepoint

/-- What an escape of one letter stands for. -/
def letter? : Codepoint → Option Text
  | .char '\n' | .char '\r' => some []
  | .char '\\' => some ['\\']
  | .char '\'' => some ['\'']
  | .char '"' => some ['"']
  | .char 'a' => some ['\x07']
  | .char 'b' => some ['\x08']
  | .char 'f' => some ['\x0c']
  | .char 'n' => some ['\n']
  | .char 'r' => some ['\r']
  | .char 't' => some ['\t']
  | .char 'v' => some ['\x0b']
  | _ => none

/-- Whether a character may stand in the name of a character. -/
def isNameChar (c : Codepoint) : Bool := c.isAsciiLetter || c.isAsciiDigit || c = ' ' || c = '-'

/-! ## Decoding

Decoding goes over the inside of a literal character by character.  A phase says
what the characters before have left open. -/

/-- What is left open inside a literal. -/
inductive Phase where
  /-- Nothing. -/
  | plain
  /-- A backslash. -/
  | slash
  /-- Octal digits, of which there may be so many more. -/
  | octal (left value : Nat)
  /-- Hexadecimal digits, of which there have to be so many more. -/
  | hex (left value : Nat)
  /-- The brace before a name. -/
  | brace
  /-- A name, with what there is of it. -/
  | name (soFar : Text)
  /-- The literal is over. -/
  | closed
  deriving DecidableEq, Repr

/-- A character outside an escape: what it adds to the string, and what comes next. -/
def plainStep (quote c : Codepoint) : Option (Text × Phase) :=
  if c = quote then some ([], .closed)
  else if c = '\\' then some ([], .slash)
  else if c = '\n' || c = '\r' || c = '\x00' then none
  else some ([c], .plain)

/-- The character after a backslash. -/
def slashStep (c : Codepoint) : Option (Text × Phase) :=
  if c.isOctal then some ([], .octal 2 (c.toNat - 0x30))
  else if c = 'x' then some ([], .hex 2 0)
  else if c = 'u' then some ([], .hex 4 0)
  else if c = 'U' then some ([], .hex 8 0)
  else if c = 'N' then some ([], .brace)
  else if c.toNat < 0x80 then (letter? c).map (·, .plain)
  else some (['\\', c], .plain)

/-- A character that comes after octal digits: one more digit, or the end of them. -/
def octalStep (quote : Codepoint) (left value : Nat) (c : Codepoint) : Option (Text × Phase) :=
  if c.isOctal && left != 0 then some ([], .octal (left - 1) (8 * value + (c.toNat - 0x30)))
  else if value ≤ 0xff then
    (plainStep quote c).map fun (out, phase) => (.ofNat value :: out, phase)
  else none

/-- A hexadecimal digit; the last one completes a code point. -/
def hexStep (left value : Nat) (c : Codepoint) : Option (Text × Phase) :=
  match c.hexValue? with
  | none => none
  | some d =>
    if left ≤ 1 then
      if 16 * value + d ≤ 0x10ffff then some ([.ofNat (16 * value + d)], .plain) else none
    else some ([], .hex (left - 1) (16 * value + d))

/-- A character of a name; the brace after it completes a code point. -/
def nameStep (names : NameTable) (soFar : Text) (c : Codepoint) : Option (Text × Phase) :=
  if c = '}' then
    if soFar = [] then none else (names soFar).map ([·], .plain)
  else if isNameChar c then some ([], .name (soFar ++ [c]))
  else none

/-- A character of a literal. -/
def charStep (names : NameTable) (quote : Codepoint) (phase : Phase) (c : Codepoint) :
    Option (Text × Phase) :=
  match phase with
  | .plain => plainStep quote c
  | .slash => slashStep c
  | .octal left value => octalStep quote left value c
  | .hex left value => hexStep left value c
  | .brace => if c = '{' then some ([], .name []) else none
  | .name soFar => nameStep names soFar c
  | .closed => none

/-- One code point of a literal.  It has to be a character. -/
def step (names : NameTable) (quote : Codepoint) (phase : Phase) (c : Codepoint) :
    Option (Text × Phase) :=
  if c.isChar then charStep names quote phase c else none

/-- What the rest of a literal comes to.  Its closing quote has to be its last
character. -/
def decode (names : NameTable) (quote : Codepoint) : Phase → Text → Value
  | .closed, [] => .string []
  | .closed, _ :: _ => .foreign
  | _, [] => .refused
  | phase, c :: rest =>
    match step names quote phase c with
    | none => .refused
    | some (out, phase) => (decode names quote phase rest).prepend out

/-- What a literal comes to, as it is written with its quotes. -/
def evaluate (names : NameTable) (written : Text) : Value :=
  match escapeBreaks written with
  | .char '"' :: rest => decode names '"' .plain rest
  | .char '\'' :: rest => decode names '\'' .plain rest
  | _ => .foreign

/-- The text that a literal spells in a definition. -/
def value? [Platform] (written : Text) : Option Text :=
  match evaluate Platform.named? written with
  | .string text => some text
  | .refused => none
  | .foreign => Platform.evaluate? (escapeBreaks written)

/-- A character inside a written literal. -/
def writeChar (c : Codepoint) : Text :=
  if c = '"' then ['\\', '"']
  else if c = '\\' then ['\\', '\\']
  else if c = '\n' then ['\\', 'n']
  else if c = '\r' then ['\\', 'r']
  else if c = '\t' then ['\\', 't']
  else if c = '\x0c' then ['\\', 'f']
  else if c = '\x08' then ['\\', 'b']
  else if c.toNat < 0x20 then
    ['\\', 'u', '0', '0', Nat.digitChar (c.toNat / 16), Nat.digitChar (c.toNat % 16)]
  else [c]

/-- The written literal of a text. -/
def write (text : Text) : Text := .char '"' :: (text.flatMap writeChar ++ [.char '"'])

/-! ## Patterns -/

/-- The pattern that is written between quotes: a backslash before a quote or
another backslash is left out.  All other escapes belong to the pattern. -/
def unescape : Text → Text
  | [] => []
  | [.char '\\'] => ['\\']
  | .char '\\' :: c :: rest =>
    if c = '\\' ∨ c = '"' then c :: unescape rest else '\\' :: unescape (c :: rest)
  | c :: rest => c :: unescape rest

/-- The inside of a written pattern. -/
def inside (written : Text) : Text := (written.drop 1).dropLast

/-- A pattern as it is written between quotes. -/
def escape (pattern : Text) : Text :=
  pattern.flatMap fun c : Codepoint => if c = '\\' ∨ c = '"' then ['\\', c] else [c]

/-- The written pattern, before its flags. -/
def writePattern (pattern : Text) : Text :=
  .char '~' :: .char '"' :: (escape pattern ++ [.char '"'])

example : evaluate (fun _ => none) "\"a\\x41\\7\\n\"".toText = .string "aA\x07\n".toText := by decide
example : evaluate (fun _ => none) "\"\\q\"".toText = .refused := by decide
example : evaluate (fun _ => none) ['"', .surrogate 0, '"'] = .refused := by decide
example : unescape "\\\\d\\d\\\"".toText = "\\d\\d\"".toText := by decide

end Pegboard.Literal
