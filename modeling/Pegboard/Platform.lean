import Pegboard.Error
import Pegboard.Regex.Flags

/-!
# What the library is built on

Three things come from outside.  Patterns are compiled and matched by a package.  A
literal may name a character, and the table of names is kept elsewhere.  And a
literal is evaluated as an expression of the host language, of which the library
only knows the form that its own grammar takes: one string in quotes.

`Platform` says what is asked of these.  Every definition that asks takes any
platform, so what is said about it holds for all of them.
-/

namespace Pegboard

/-- What the library takes from outside. -/
class Platform where
  /-- Whether the package accepts a pattern, given by its source and its flags. -/
  accepts : Text → Regex.Flags → Bool
  /-- How many characters a pattern matches at the start of a text. -/
  matchLength? : Text → Regex.Flags → Text → Option Nat
  /-- The code point of a name. -/
  named? : Text → Option Codepoint
  /-- The string that an expression comes to, if it comes to one. -/
  evaluate? : Text → Option Text

/-- A match ends within its text. -/
class Platform.Bounded [Platform] : Prop where
  /-- No more characters are matched than there are. -/
  length_le : ∀ {source : Text} {flags : Regex.Flags} {text : Text} {length : Nat},
    Platform.matchLength? source flags text = some length → length ≤ text.length

namespace Regex

/-- A pattern: its source, and the flags it is read under. -/
structure Pattern where
  /-- The source. -/
  source : Text
  /-- The flags. -/
  flags : Flags
  deriving DecidableEq

namespace Pattern

variable [Platform]

/-- Whether a pattern is one. -/
def Accepted (p : Pattern) : Prop := Platform.accepts p.source p.flags = true

/-- How many characters the pattern matches at the start of a text. -/
def matchLength? (p : Pattern) (text : Text) : Option Nat :=
  Platform.matchLength? p.source p.flags text

/-- A pattern from its source and its flags as written.  The flags are checked
before the pattern is. -/
def ofWritten (source written : Text) : Except Error Pattern :=
  match Flags.ofLetters written with
  | .error letter => .error (.unknownFlag source written letter)
  | .ok flags =>
    if Platform.accepts source flags then .ok ⟨source, flags⟩
    else .error (.badPattern source flags.letters)

theorem accepted_of_ofWritten {source written : Text} {p : Pattern}
    (h : ofWritten source written = .ok p) : p.Accepted := by
  rw [ofWritten] at h
  split at h
  · cases h
  · split at h
    · next haccepts =>
      cases h
      exact haccepts
    · cases h

theorem matchLength_le [Platform.Bounded] {p : Pattern} {text : Text} {length : Nat}
    (h : p.matchLength? text = some length) : length ≤ text.length :=
  Platform.Bounded.length_le h

end Pattern

end Regex

end Pegboard
