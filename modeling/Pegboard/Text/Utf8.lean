import Pegboard.Text.Basic

/-!
# Reading UTF-8

A file is a list of bytes.  It is a text when the bytes are well-formed UTF-8:
no overlong form, no encoded surrogate, nothing past U+10FFFF and no sequence cut
short.  A byte order mark is a code point like any other.

After decoding, every line end is a line feed: a carriage return with or without
a line feed after it counts as one line end.
-/

namespace Pegboard.Text

/-- The six payload bits of a continuation byte. -/
def tailBits? (byte : Nat) : Option Nat :=
  if 0x80 ≤ byte && byte ≤ 0xbf then some (byte - 0x80) else none

/-- A code point from its number, if the number is at least `least` and not that
of a surrogate or past the last code point. -/
def scalar? (least n : Nat) : Option Codepoint :=
  if h : n.isValidChar then if least ≤ n then some (Char.ofNatAux n h) else none else none

/-- The code point of a two-byte form. -/
def pair? (a b : Nat) : Option Codepoint := do
  let b ← tailBits? b
  scalar? 0x80 ((a - 0xc0) * 0x40 + b)

/-- The code point of a three-byte form. -/
def triple? (a b c : Nat) : Option Codepoint := do
  let b ← tailBits? b
  let c ← tailBits? c
  scalar? 0x800 (((a - 0xe0) * 0x40 + b) * 0x40 + c)

/-- The code point of a four-byte form. -/
def quadruple? (a b c d : Nat) : Option Codepoint := do
  let b ← tailBits? b
  let c ← tailBits? c
  let d ← tailBits? d
  scalar? 0x10000 ((((a - 0xf0) * 0x40 + b) * 0x40 + c) * 0x40 + d)

/-- The text that the bytes encode, or nothing if they are not UTF-8. -/
def ofUtf8? : List Nat → Option Text
  | [] => some []
  | a :: more =>
    if a < 0x80 then (ofUtf8? more).map (Codepoint.ofNat a :: ·)
    else if a < 0xc0 then none
    else if a < 0xe0 then
      match more with
      | b :: more => do return (← pair? a b) :: (← ofUtf8? more)
      | [] => none
    else if a < 0xf0 then
      match more with
      | b :: c :: more => do return (← triple? a b c) :: (← ofUtf8? more)
      | _ => none
    else if a < 0xf8 then
      match more with
      | b :: c :: d :: more => do return (← quadruple? a b c d) :: (← ofUtf8? more)
      | _ => none
    else none

/-- The text with every line end written as one line feed. -/
def unixLines : Text → Text
  | [] => []
  | .char '\r' :: .char '\n' :: more => '\n' :: unixLines more
  | c :: more => (if c = '\r' then '\n' else c) :: unixLines more

example : ofUtf8? [0x61, 0xc3, 0xa9] = some "aé".toText := by decide
example : ofUtf8? [0xc0, 0x80] = none ∧ ofUtf8? [0xed, 0xa0, 0x80] = none := by decide
example : unixLines "a\r\nb\rc\n".toText = "a\nb\nc\n".toText := by decide

end Pegboard.Text
