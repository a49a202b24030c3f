import Pegboard.Codepoint.Space
import Pegboard.Regex.Basic
import Pegboard.Regex.Flags

/-!
# Scanning a pattern

Reading a pattern walks over its characters and keeps count of its groups.  In a
verbose pattern the blanks and comments between its parts are left out: a comment
runs from a number sign to the end of its line.

A pattern that cannot be read is rejected.  A pattern with flags of its own, such
as `(?i)`, has to be read again from its start under those flags as well, so that
is the second way in which reading may stop.
-/

namespace Pegboard.Regex

/-- A group as a pattern refers to it. -/
inductive Key where
  /-- By its number. -/
  | number (n : Nat)
  /-- By its name. -/
  | name (text : Text)
  deriving DecidableEq, Repr

/-- Why reading a pattern stops. -/
inductive Stop where
  /-- It is no pattern. -/
  | rejected
  /-- It has to be read under more flags. -/
  | restart (flags : Flags)
  deriving DecidableEq, Repr

/-- How far the reading has come. -/
structure Scan where
  /-- The characters to come. -/
  rest : Text
  /-- The named groups and their numbers. -/
  names : List (Text × Nat) := []
  /-- The number of the last group. -/
  count : Nat := 0
  /-- The groups that are still open. -/
  opened : List Nat := []
  deriving DecidableEq, Repr

/-- A step of the reading. -/
abbrev Reader := StateT Scan (Except Stop)

/-- Stops the reading: this is no pattern. -/
def reject {α : Type} : Reader α := throw .rejected

/-- The characters after blanks and comments.  `comment` says whether the first
one stands in a comment. -/
def skipGaps (comment : Bool) : Text → Text
  | [] => []
  | c :: rest =>
    if comment then skipGaps (c != '\n') rest
    else if Codepoint.isGap c.toNat then skipGaps false rest
    else if c = '#' then skipGaps true rest
    else c :: rest

/-- The characters to come, without leading blanks and comments if verbose. -/
def visible (verbose : Bool) (text : Text) : Text := if verbose then skipGaps false text else text

/-- The characters up to the first one that fails the test, and what comes after
them.  In a verbose pattern blanks and comments are left out on the way. -/
def spanVisible (verbose : Bool) (keep : Codepoint → Bool) (comment : Bool) : Text → Text × Text
  | [] => ([], [])
  | c :: rest =>
    if comment then spanVisible verbose keep (c != '\n') rest
    else if verbose && Codepoint.isGap c.toNat then spanVisible verbose keep false rest
    else if verbose && c = '#' then spanVisible verbose keep true rest
    else if keep c then
      ((c :: (spanVisible verbose keep false rest).1), (spanVisible verbose keep false rest).2)
    else ([], c :: rest)

/-- What comes after a token, if it comes next. -/
def afterToken? (verbose : Bool) : Text → Text → Option Text
  | [], text => some text
  | t :: token, text =>
    match visible verbose text with
    | [] => none
    | c :: rest => if c = t then afterToken? verbose token rest else none

/-- Goes back to characters seen before. -/
def rewind (rest : Text) : Reader Unit := modify fun s => { s with rest }

/-- The characters to come. -/
def remaining : Reader Text := do return (← get).rest

/-- Takes the next character. -/
def next? (verbose : Bool) : Reader (Option Codepoint) := do
  match visible verbose (← remaining) with
  | [] => rewind []; return none
  | c :: rest => rewind rest; return some c

/-- Takes a token, if it comes next. -/
def accept (verbose : Bool) (token : String) : Reader Bool := do
  match afterToken? verbose token.toText (← remaining) with
  | some rest => rewind rest; return true
  | none => return false

/-- Takes a token that has to come next. -/
def expect (verbose : Bool) (token : String) : Reader Unit := do
  if !(← accept verbose token) then reject

/-- Takes the characters that pass a test. -/
def takeSpan (verbose : Bool) (keep : Codepoint → Bool) : Reader Text := do
  let (taken, rest) := spanVisible verbose keep false (← remaining)
  rewind rest
  return taken

/-! ## Groups -/

/-- The number that decimal digits spell. -/
def decimal (digits : Text) : Nat := digits.foldl (fun n d => 10 * n + (d.toNat - 0x30)) 0

/-- Whether a text is a name: a letter or underscore, then word characters. -/
def isName : Text → Bool
  | [] => false
  | c :: rest =>
    (c = '_' || Codepoint.isAlphabetic c.toNat) && rest.all fun d => Codepoint.isWord d.toNat

/-- Takes the name of a group, or its number where `numeric` allows that. -/
def groupKey (verbose numeric : Bool) : Reader Key := do
  let name ← takeSpan verbose fun c : Codepoint => c != ')' && c != '>'
  if name.isEmpty then reject
  if name.all Codepoint.isAsciiDigit then
    if numeric && 0 < decimal name then return .number (decimal name) else reject
  else if isName name then return .name name
  else reject

/-- The number of the group that a key refers to so far. -/
def Scan.groupNumber? (s : Scan) : Key → Option Nat
  | .number n => some n
  | .name name => s.names.lookup name

/-- Opens a group and gives its number.  A name that is known already keeps its
number. -/
def openGroup (name : Option Text) : Reader Nat := do
  let s ← get
  match name.bind (s.names.lookup ·) with
  | some number =>
    set { s with opened := number :: s.opened }
    return number
  | none =>
    let number := s.count + 1
    set { s with
      count := number
      opened := number :: s.opened
      names := match name with
        | some name => (name, number) :: s.names
        | none => s.names }
    return number

/-- Closes the group opened last. -/
def closeGroup : Reader Unit := modify fun s => { s with opened := s.opened.tail }

/-- Whether a key refers to a group that is still open. -/
def isOpenGroup (key : Key) : Reader Bool := do
  let s ← get
  return (s.groupNumber? key).any s.opened.contains

example : afterToken? true "a".toText "  # note\n ab".toText = some "b".toText := by decide

end Pegboard.Regex
