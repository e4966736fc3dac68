import Combinatory.Text.CodePoint

/-!
# Ignorable characters

The characters that are shown as nothing where they have no effect: joiners, fillers, variation selectors and tags.
These are the characters with the property `Default_Ignorable_Code_Point`. The fillers of the Hangul syllables are
letters by their category, and yet nothing of them is seen.
-/

namespace Combinatory.Text

/-- The code points with the property `Default_Ignorable_Code_Point`. -/
def ignorableRanges : CodePointRanges :=
  [(0xAD, 0xAD), (0x34F, 0x34F), (0x61C, 0x61C), (0x115F, 0x1160), (0x17B4, 0x17B5), (0x180B, 0x180F),
    (0x200B, 0x200F), (0x202A, 0x202E), (0x2060, 0x206F), (0x3164, 0x3164), (0xFE00, 0xFE0F), (0xFEFF, 0xFEFF),
    (0xFFA0, 0xFFA0), (0xFFF0, 0xFFF8), (0x1BCA0, 0x1BCA3), (0x1D173, 0x1D17A), (0xE0000, 0xE0FFF)]

example : ignorableRanges.isAscending = true := by decide +kernel

example : ignorableRanges.count = 4174 := by decide +kernel

end Combinatory.Text
