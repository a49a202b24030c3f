import Pegboard.Codepoint.Basic
import Pegboard.Codepoint.CaseVariants
import Pegboard.Codepoint.Space
import Pegboard.Codepoint.Word

/-!
# Sets of characters

One step of a pattern tests one character.  The test is a set: code points,
ranges and classes, taken as they are or by their complement.

When case is ignored, a code point or range holds a character if it holds one of
the character's case variants, and so does a class.  The complement of a class
then holds a character only if the class holds none of its variants.  Under the
ASCII flag a class holds no character past U+007F, and only ASCII letters have
case variants.
-/

namespace Pegboard.Regex

/-- A class of characters that an escape or a property names. -/
inductive CharClass where
  | digit
  | space
  | word
  | letter
  | upper
  | lower
  | alphabetic
  | alphanumeric
  | any
  deriving DecidableEq, Repr

/-- Whether a class holds a code point. -/
def CharClass.holds : CharClass → Nat → Bool
  | digit, n => Codepoint.isDigit n
  | space, n => Codepoint.isSpace n
  | word, n => Codepoint.isWord n
  | letter, n => Codepoint.isLetter n
  | upper, n => Codepoint.isUpper n
  | lower, n => Codepoint.isLower n
  | alphabetic, n => Codepoint.isAlphabetic n
  | alphanumeric, n => Codepoint.isAlphabetic n || Codepoint.isDigit n
  | any, _ => true

/-- Whether a class holds a code point when case is ignored: the two classes of
letters of one case then hold every letter with case. -/
def CharClass.holdsAnyCase : CharClass → Nat → Bool
  | upper, n => Codepoint.isCased n
  | lower, n => Codepoint.isCased n
  | c, n => c.holds n

/-- A member of a set. -/
inductive Member where
  /-- One code point. -/
  | code (n : Nat)
  /-- The code points from one to another, both included. -/
  | range (low high : Nat)
  /-- The code points of a class, or those outside it. -/
  | ofClass (c : CharClass) (positive : Bool)
  deriving DecidableEq, Repr

/-- A set of characters. -/
structure CharSet where
  /-- The members. -/
  members : List Member
  /-- Whether the set holds what a member holds, or everything else. -/
  positive : Bool := true
  /-- Whether case variants count. -/
  ignoreCase : Bool := false
  /-- Whether classes and case variants are those of ASCII. -/
  ascii : Bool := false
  deriving DecidableEq, Repr

namespace CharSet

/-- Whether a class of the set holds a code point. -/
def classHolds (s : CharSet) (c : CharClass) (n : Nat) : Bool :=
  (!s.ascii || n < 0x80) && (if s.ignoreCase then c.holdsAnyCase n else c.holds n)

/-- A code point and, if case is ignored, its case variants. -/
def spellings (s : CharSet) (n : Nat) : List Nat :=
  n :: if s.ignoreCase then (if s.ascii then Codepoint.asciiVariants n else Codepoint.variants n)
    else []

/-- Whether a member holds a character, given the character's spellings. -/
def memberHolds (s : CharSet) (spellings : List Nat) : Member → Bool
  | .code m => spellings.contains m
  | .range low high => spellings.any fun n => low ≤ n && n ≤ high
  | .ofClass c positive => spellings.any (s.classHolds c) == positive

/-- Whether the set holds a character. -/
def holds (s : CharSet) (c : Codepoint) : Bool :=
  s.members.any (s.memberHolds (s.spellings c.toNat)) == s.positive

example : holds { members := [.range 0x61 0x7a], ignoreCase := true } 'Q' = true := by decide

end CharSet

end Pegboard.Regex
