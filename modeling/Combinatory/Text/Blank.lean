import Combinatory.Text.CodePoint

/-!
# Blanks

The characters that separate words: those with the property `White_Space` of the Unicode character database.
There are 25 of them, in ten ranges. The information separators U+001C to U+001F, the zero-width space and
the byte order mark do not have the property.
-/

namespace Combinatory.Text

/-- The code points with the property `White_Space`. -/
def blankRanges : CodePointRanges :=
  [(0x09, 0x0D), (0x20, 0x20), (0x85, 0x85), (0xA0, 0xA0), (0x1680, 0x1680), (0x2000, 0x200A),
    (0x2028, 0x2029), (0x202F, 0x202F), (0x205F, 0x205F), (0x3000, 0x3000)]

example : blankRanges.isAscending = true := by decide

example : blankRanges.count = 25 := by decide

/-- Whether a character separates words. -/
def isBlank (c : Char) : Bool := blankRanges.contains c

end Combinatory.Text
