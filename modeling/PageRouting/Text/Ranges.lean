/-!
# `PageRouting/Text/Ranges.lean` — properties of characters as ranges of code points

A property is given by the closed ranges of code points that have it, ascending and apart. The search stops at the first
range that starts beyond the code point, so that a code point below 128 is settled by the first few ranges of any table.
-/

set_option autoImplicit false

namespace PageRouting.Text

/-- Does a code point lie in one of the ascending ranges? -/
def inRanges : List (Nat × Nat) → Nat → Bool
  | [], _ => false
  | (first, last) :: rest, n =>
    if n < first then false else if n ≤ last then true else inRanges rest n

end PageRouting.Text
