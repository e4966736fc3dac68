import Combinatory.Text.Extender
import Combinatory.Text.Ignorable
import Combinatory.Text.Unassigned

/-!
# Unprintable characters

A character is unprintable if it has no glyph, because it is a control, a format character, a separator other than
the space, for private use or not assigned at all, if its glyph needs another one to stand on, or if it is shown as
nothing.
-/

namespace Combinatory.Text

/-- The code points of the categories `Cc`, `Cf`, `Co`, `Cs`, `Zl`, `Zp` and `Zs`, without the space. -/
def invisibleRanges : CodePointRanges :=
  [(0x0, 0x1F), (0x7F, 0xA0), (0xAD, 0xAD), (0x600, 0x605), (0x61C, 0x61C), (0x6DD, 0x6DD), (0x70F, 0x70F),
    (0x890, 0x891), (0x8E2, 0x8E2), (0x1680, 0x1680), (0x180E, 0x180E), (0x2000, 0x200F), (0x2028, 0x202F),
    (0x205F, 0x2064), (0x2066, 0x206F), (0x3000, 0x3000), (0xD800, 0xF8FF), (0xFEFF, 0xFEFF),
    (0xFFF9, 0xFFFB), (0x110BD, 0x110BD), (0x110CD, 0x110CD), (0x13430, 0x1343F), (0x1BCA0, 0x1BCA3),
    (0x1D173, 0x1D17A), (0xE0001, 0xE0001), (0xE0020, 0xE007F), (0xF0000, 0xFFFFD), (0x100000, 0x10FFFD)]

example : invisibleRanges.isAscending = true := by decide +kernel

example : invisibleRanges.count = 139769 := by decide +kernel

/-- Whether a character has no glyph of its own. -/
def isUnprintable (c : Char) : Bool :=
  invisibleRanges.contains c || extenderRanges.contains c || ignorableRanges.contains c ||
    unassignedRanges.contains c

end Combinatory.Text
