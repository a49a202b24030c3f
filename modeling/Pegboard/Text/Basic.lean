import Pegboard.Codepoint.Basic

/-!
# Texts and offsets

A text is the list of its code points.  An offset is an integer.  A negative
offset counts back from the end of the text, and one that would fall before the
text stands for its start.  An offset may also lie past the end: nothing is left
of the text there.

`Text.index` says where an offset falls, and `rest`, `slice` and `startsAt` are
the three ways in which the library looks into a text.
-/

namespace Pegboard

/-- A text: its code points in order. -/
abbrev Text := List Codepoint

end Pegboard

/-- A string as a text. -/
def String.toText (s : String) : Pegboard.Text := s.toList.map .char

namespace Pegboard.Text

/-- No surrogate stands in a text. -/
def NoSurrogate (text : Text) : Prop := ∀ c ∈ text, c.isChar = true

instance (text : Text) : Decidable text.NoSurrogate :=
  inferInstanceAs (Decidable (∀ c ∈ text, c.isChar = true))

/-- The number that octal digits spell. -/
def octalNumber (digits : Text) : Nat := digits.foldl (fun n d => 8 * n + (d.toNat - 0x30)) 0

/-- The place where an offset falls: a negative one counts back from the end and
stops at the start. -/
def index (text : Text) (pos : Int) : Nat :=
  if pos < 0 then (text.length + pos).toNat else pos.toNat

/-- What is left of the text at an offset. -/
def rest (text : Text) (pos : Int) : Text := text.drop (text.index pos)

/-- The part of the text from one offset up to another one. -/
def slice (text : Text) (start stop : Int) : Text :=
  (text.take (text.index stop)).drop (text.index start)

/-- Whether a piece stands in the text at an offset.  Past the end of the text
not even the empty piece does. -/
def startsAt (text piece : Text) (pos : Int) : Bool :=
  piece.isPrefixOf (text.rest pos) && decide (pos ≤ text.length)

/-- The pieces with a separator between neighbours. -/
def join (separator : Text) : List Text → Text
  | [] => []
  | [piece] => piece
  | piece :: rest => piece ++ separator ++ join separator rest

/-- The decimal digits of a natural number. -/
def ofNat (n : Nat) : Text := (Nat.toDigits 10 n).map .char

/-- The decimal digits of an integer, after a minus sign if it is negative. -/
def ofInt (n : Int) : Text := if n < 0 then '-' :: ofNat n.natAbs else ofNat n.natAbs

/-! ## Offsets from the start -/

theorem index_natCast (text : Text) (n : Nat) : text.index n = n := by
  simp only [index, Int.toNat_natCast]
  split <;> omega

theorem rest_natCast (text : Text) (n : Nat) : text.rest n = text.drop n := by
  simp [rest, index_natCast]

theorem slice_natCast (text : Text) (m n : Nat) : text.slice m n = (text.take n).drop m := by
  simp [slice, index_natCast]

example : rest "abc".toText (-2) = "bc".toText ∧ rest "abc".toText (-9) = "abc".toText := by decide
example : startsAt "ab".toText [] 2 = true ∧ startsAt "ab".toText [] 3 = false := by decide

end Pegboard.Text
