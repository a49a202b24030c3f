import Pegboard.Text.Basic

/-!
# Lines, columns and carets

An offset is shown to a reader by its line and column, both counted from 1, and
by a snippet: the line that holds it over a caret that points at it.  A line ends
at a line feed only.

The column is counted from the offset itself, so an offset past the end of the
text has a column past the end of its line, and one counted back from the end
may have a column below 1.  The caret is then not indented.
-/

namespace Pegboard.Text

/-- The text before an offset. -/
def before (src : Text) (pos : Int) : Text := src.take (src.index pos)

/-- Where the line that holds an offset begins. -/
def lineStart (src : Text) (pos : Int) : Nat :=
  (src.before pos).length - ((src.before pos).reverse.takeWhile (· != Codepoint.char '\n')).length

/-- Where the line that holds an offset ends. -/
def lineStop (src : Text) (pos : Int) : Nat :=
  src.index pos + ((src.rest pos).takeWhile (· != Codepoint.char '\n')).length

/-- The line of an offset, counted from 1. -/
def line (src : Text) (pos : Int) : Nat := (src.before pos).count (Codepoint.char '\n') + 1

/-- The column of an offset, counted from 1. -/
def column (src : Text) (pos : Int) : Int := pos - src.lineStart pos + 1

/-- The line that holds an offset, without its line feed. -/
def lineText (src : Text) (pos : Int) : Text := src.slice (src.lineStart pos) (src.lineStop pos)

/-- The line that holds an offset, and below it a caret that points at it. -/
def snippet (src : Text) (pos : Int) : Text :=
  src.lineText pos ++ .char '\n' :: (List.replicate (pos - src.lineStart pos).toNat (Codepoint.char ' ') ++ [.char '^'])

example : line "ab\ncd".toText 4 = 2 ∧ column "ab\ncd".toText 4 = 2 := by decide
example : snippet "ab\ncd".toText 4 = "cd\n ^".toText := by decide
example : column "ab\ncd\nef".toText (-4) = -6 := by decide

end Pegboard.Text
