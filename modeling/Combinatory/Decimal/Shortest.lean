/-!
# Shortest decimals

The decimal with the fewest digits that still identifies a binary floating-point number: of all decimals that
round to the number, one with the fewest digits, and of those the nearest to it.

## The model

A `Dyadic` is a positive number `mantissa * 2 ^ exponent` together with the distance to its lower neighbour. The
reals that round to it form an interval; comparisons with its ends are made in naturals, by cross-multiplication.
The search goes through the grids of one digit, two digits and so on. On each grid only the two neighbours of
the number can be nearest to it, so only they are tested. Seventeen digits always identify a double.
-/

namespace Combinatory

/-- A decimal number `digits * 10 ^ exponent`. -/
structure Decimal where
  /-- The digits, read as a natural number. -/
  digits : Nat
  /-- The power of ten that they are multiplied by. -/
  exponent : Int
  deriving DecidableEq, Repr

/-- A positive binary number `mantissa * 2 ^ exponent`, with its neighbourhood. -/
structure Dyadic where
  /-- The mantissa. -/
  mantissa : Nat
  /-- The power of two that it is multiplied by. -/
  exponent : Int
  /-- Whether the next smaller number is only half as far away as the next larger one. -/
  tightBelow : Bool
  deriving DecidableEq, Repr

namespace Dyadic

/-- The absolute value of a finite double, from its bits. -/
def ofBits (bits : UInt64) : Dyadic :=
  let biased : Nat := (bits.toNat / Nat.pow 2 52) % Nat.pow 2 11
  let fraction : Nat := bits.toNat % Nat.pow 2 52
  if biased = 0 then { mantissa := fraction, exponent := -1074, tightBelow := false }
  else
    { mantissa := Nat.pow 2 52 + fraction, exponent := (biased : Int) - 1075
      tightBelow := fraction = 0 ∧ biased ≠ 1 }

/-- The numerator of a power with an integer exponent. -/
def powNum (base : Nat) (e : Int) : Nat := Nat.pow base e.toNat

/-- The denominator of a power with an integer exponent. -/
def powDen (base : Nat) (e : Int) : Nat := Nat.pow base (-e).toNat

/-- Quarters of the unit of the last binary place, in units of a decimal grid: `n` quarters are
`n * quarter / unit` steps of the grid `10 ^ e`. -/
def quarter (x : Dyadic) (e : Int) : Nat := powNum 2 (x.exponent - 2) * powDen 10 e

/-- The size of a step of the decimal grid `10 ^ e`, on the scale of `quarter`. -/
def unit (x : Dyadic) (e : Int) : Nat := powNum 10 e * powDen 2 (x.exponent - 2)

/-- Whether `c * 10 ^ e` rounds to the number. The ends of the interval belong to it if the mantissa is even. -/
def identifiedBy (x : Dyadic) (c : Nat) (e : Int) : Bool :=
  let low := (4 * x.mantissa - if x.tightBelow then 1 else 2) * x.quarter e
  let high := (4 * x.mantissa + 2) * x.quarter e
  let value := c * x.unit e
  if x.mantissa % 2 = 0 then low ≤ value ∧ value ≤ high else low < value ∧ value < high

/-- The neighbour on the grid `10 ^ e` that identifies the number; of two the nearer one, and of two equally near
ones the larger. -/
def onGrid? (x : Dyadic) (e : Int) : Option Decimal :=
  let scaled := 4 * x.mantissa * x.quarter e
  let c := scaled / x.unit e
  match x.identifiedBy c e, x.identifiedBy (c + 1) e with
  | true, true => some ⟨if 2 * (scaled % x.unit e) < x.unit e then c else c + 1, e⟩
  | true, false => some ⟨c, e⟩
  | false, true => some ⟨c + 1, e⟩
  | false, false => none

/-- The number of decimal digits of a natural number. -/
def digitCount (n : Nat) : Nat := (Nat.toDigits 10 n).length

/-- The decimal exponent of the leading digit. -/
def magnitude (x : Dyadic) : Int :=
  let num := x.mantissa * powNum 2 x.exponent
  let den := powDen 2 x.exponent
  if den ≤ num then digitCount (num / den) - 1 else -(digitCount (den / num))

/-- The shortest decimal that identifies the number. -/
def shortest (x : Dyadic) : Decimal :=
  let grid (places : Nat) : Int := x.magnitude - places
  ((List.range 17).findSome? fun places => x.onGrid? (grid places)).getD
    ⟨x.mantissa * powNum 2 x.exponent * powNum 5 (-x.exponent), min x.exponent 0⟩

end Dyadic

end Combinatory
