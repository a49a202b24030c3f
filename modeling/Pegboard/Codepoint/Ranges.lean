/-!
# Ranges of code points

A class of code points is given by closed ranges in ascending order.  The search
stops at the first range that starts past the code point, so a look-up of a
small code point does not walk the whole table.
-/

namespace Pegboard.Codepoint

/-- Closed ranges of code points, ascending and apart. -/
abbrev Ranges := List (Nat × Nat)

/-- Whether one of the ranges holds the code point. -/
def Ranges.holds : Ranges → Nat → Bool
  | [], _ => false
  | (low, high) :: rest, n =>
    if n < low then false
    else if n ≤ high then true
    else Ranges.holds rest n

example : Ranges.holds [(3, 5), (8, 9)] 8 = true ∧ Ranges.holds [(3, 5), (8, 9)] 6 = false := by
  decide

end Pegboard.Codepoint
