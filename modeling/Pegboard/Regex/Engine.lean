import Pegboard.Platform
import Pegboard.Regex.Pattern

/-!
# The platform of the program

The program brings an engine for patterns of its own, and matches them with it.  Its
table of names is empty, and nothing but a string in quotes is evaluated.
-/

namespace Pegboard

/-- The platform that the program runs on. -/
@[reducible] def Platform.builtIn : Platform where
  accepts source flags := (Regex.read? source flags).isSome
  matchLength? source flags text := (Regex.read? source flags).bind (·.matchLength? text)
  named? _ := none
  evaluate? _ := none

end Pegboard
