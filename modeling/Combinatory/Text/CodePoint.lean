/-!
# Ranges of code points

A property of characters as a list of ranges of code points, ends included. The ranges ascend and do not touch, so
that there is one list for each property.

The tables of this library follow version 17.0 of the Unicode character database.
-/

namespace Combinatory.Text

/-- Ranges of code points, ends included. -/
abbrev CodePointRanges : Type := List (Nat × Nat)

namespace CodePointRanges

/-- Whether a character is in one of the ranges. -/
def contains (rs : CodePointRanges) (c : Char) : Bool := rs.any fun (lo, hi) => lo ≤ c.toNat && c.toNat ≤ hi

/-- Whether the ranges ascend, with a gap between any two. -/
def isAscending : CodePointRanges → Bool
  | [] => true
  | [(lo, hi)] => lo ≤ hi
  | (lo, hi) :: (lo', hi') :: rs => lo ≤ hi && hi + 1 < lo' && isAscending ((lo', hi') :: rs)

/-- The number of code points in the ranges, if they ascend. -/
def count (rs : CodePointRanges) : Nat := rs.foldl (fun n (lo, hi) => n + (hi + 1 - lo)) 0

end CodePointRanges

end Combinatory.Text
