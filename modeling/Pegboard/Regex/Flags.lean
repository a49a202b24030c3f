import Pegboard.Codepoint.Lower
import Pegboard.Text.Basic

/-!
# Flags of a pattern

A pattern is read under seven flags, each with a letter.  The letters may be
written in any case, order and number.  Their canonical spelling has every letter
once, in the order `ilmsuxa`.

At most one of the three flags that choose an alphabet may be given: `a` for
ASCII, `l` for the locale and `u` for Unicode.
-/

namespace Pegboard.Regex

/-- The flags a pattern is read under. -/
structure Flags where
  /-- `i`: letters match their case variants. -/
  ignoreCase : Bool := false
  /-- `l`: classes follow the locale. -/
  locale : Bool := false
  /-- `m`: the line anchors hold at every line. -/
  multiline : Bool := false
  /-- `s`: the dot matches a line feed too. -/
  dotAll : Bool := false
  /-- `u`: classes follow Unicode. -/
  unicode : Bool := false
  /-- `x`: blanks and comments in the pattern are left out. -/
  verbose : Bool := false
  /-- `a`: classes are those of ASCII. -/
  ascii : Bool := false
  deriving DecidableEq, Repr

namespace Flags

/-- The flags of a letter, all others unset. -/
def ofLetter? : Codepoint → Option Flags
  | .char 'i' => some { ignoreCase := true }
  | .char 'l' => some { locale := true }
  | .char 'm' => some { multiline := true }
  | .char 's' => some { dotAll := true }
  | .char 'u' => some { unicode := true }
  | .char 'x' => some { verbose := true }
  | .char 'a' => some { ascii := true }
  | _ => none

/-- The flags set in one or the other. -/
def union (f g : Flags) : Flags where
  ignoreCase := f.ignoreCase || g.ignoreCase
  locale := f.locale || g.locale
  multiline := f.multiline || g.multiline
  dotAll := f.dotAll || g.dotAll
  unicode := f.unicode || g.unicode
  verbose := f.verbose || g.verbose
  ascii := f.ascii || g.ascii

/-- The flags set in the first and not in the second. -/
def minus (f g : Flags) : Flags where
  ignoreCase := f.ignoreCase && !g.ignoreCase
  locale := f.locale && !g.locale
  multiline := f.multiline && !g.multiline
  dotAll := f.dotAll && !g.dotAll
  unicode := f.unicode && !g.unicode
  verbose := f.verbose && !g.verbose
  ascii := f.ascii && !g.ascii

/-- Whether no flag is set. -/
def isNone (f : Flags) : Bool := f == {}

/-- Whether two flags choose different alphabets. -/
def conflict (f : Flags) : Bool :=
  (f.ascii && f.locale) || (f.ascii && f.unicode) || (f.locale && f.unicode)

/-- The canonical spelling. -/
def letters (f : Flags) : Text :=
  (if f.ignoreCase then [.char 'i'] else []) ++ (if f.locale then [.char 'l'] else []) ++
  (if f.multiline then [.char 'm'] else []) ++ (if f.dotAll then [.char 's'] else []) ++
  (if f.unicode then [.char 'u'] else []) ++ (if f.verbose then [.char 'x'] else []) ++
  (if f.ascii then [.char 'a'] else [])

/-- The lower case form of letters as written. -/
def lowered (written : Text) : Text :=
  written.flatMap fun c => (Codepoint.lower c.toNat).map Codepoint.ofNat

/-- The flags of letters in lower case, or the first letter that is none. -/
def ofLowered : Text → Except Codepoint Flags
  | [] => .ok {}
  | c :: rest =>
    match ofLetter? c with
    | none => .error c
    | some f =>
      match ofLowered rest with
      | .ok g => .ok (f.union g)
      | .error d => .error d

/-- The flags of letters as written, or the first letter that is none. -/
def ofLetters (written : Text) : Except Codepoint Flags := ofLowered (lowered written)

example : (ofLetters "SIi".toText).toOption.map letters = some "is".toText := by decide

end Flags

end Pegboard.Regex
