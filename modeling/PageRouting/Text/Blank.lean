import PageRouting.Text.Ranges
import PageRouting.Text

/-!
# `PageRouting/Text/Blank.lean` — white space around values

Values read from the environment and from the command line may be padded. What counts as padding is the white space of
Unicode 14, to which the four separators U+001C to U+001F are added.
-/

set_option autoImplicit false

namespace PageRouting.Text

/-- White space, as closed ranges of code points. -/
def blankRanges : List (Nat × Nat) :=
  [(0x09, 0x0D), (0x1C, 0x20), (0x85, 0x85), (0xA0, 0xA0), (0x1680, 0x1680), (0x2000, 0x200A), (0x2028, 0x2029),
   (0x202F, 0x202F), (0x205F, 0x205F), (0x3000, 0x3000)]

/-- Is the character white space? -/
def isBlank (c : Char) : Bool :=
  inRanges blankRanges c.toNat

/-- The text without the characters of a class at either end. -/
def trimWhere (isPadding : Char → Bool) (t : Text) : Text :=
  ((t.dropWhile isPadding).reverse.dropWhile isPadding).reverse

/-- The text without white space at either end. -/
def trimBlank (t : Text) : Text :=
  trimWhere isBlank t

end PageRouting.Text
