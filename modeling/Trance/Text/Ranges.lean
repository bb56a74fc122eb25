/-!
# Sets of code points given by ranges

A property of characters is stored as a sorted list of inclusive ranges of code
points. Membership walks the list and stops at the first range that lies above the
code point, so the common characters, which stand first, are decided at once.
-/

namespace Trance.Text

/-- Inclusive ranges of code points, in increasing order and without overlap. -/
abbrev Ranges := List (Nat × Nat)

/-- Whether a code point lies in one of the ranges. The walk ends at the first range
above the code point, which is right because the ranges increase. -/
def Ranges.contains : Ranges → Nat → Bool
  | [], _ => false
  | (low, high) :: rest, n =>
    if n < low then false else if n ≤ high then true else Ranges.contains rest n

end Trance.Text
