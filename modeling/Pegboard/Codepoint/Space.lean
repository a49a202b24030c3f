import Pegboard.Codepoint.Ranges

/-!
# White space

Two classes of white space are in use.  `isSpace` is the class that the escape
`\s` of a pattern stands for.  `isGap` is what a verbose pattern leaves out
between its parts: the same class and the four information separators.
-/

namespace Pegboard.Codepoint

/-- White space, as ascending ranges. -/
def spaceRanges : Ranges :=
  [(0x9, 0xd), (0x20, 0x20), (0x85, 0x85), (0xa0, 0xa0), (0x1680, 0x1680), (0x2000, 0x200a),
   (0x2028, 0x2029), (0x202f, 0x202f), (0x205f, 0x205f), (0x3000, 0x3000)]

/-- Whether the code point is white space. -/
def isSpace (n : Nat) : Bool := spaceRanges.holds n

/-- Whether a verbose pattern skips the code point. -/
def isGap (n : Nat) : Bool := isSpace n || (0x1c ≤ n && n ≤ 0x1f)

end Pegboard.Codepoint
