import Combinatory.Decimal.Shortest

/-!
# Decimal notation

Floating-point numbers as text: the shortest decimal that identifies the number, in positional notation, however
large or small it is. Formats differ in whether a whole number shows a decimal place, and in the text of a value
that is not a number.
-/

namespace Combinatory

namespace Decimal

/-- Moves trailing zeros of the digits to the exponent, at most `fuel` of them. -/
def stripZeros : (fuel : Nat) → Decimal → Decimal
  | 0, d => d
  | fuel + 1, d =>
    if d.digits ≠ 0 ∧ d.digits % 10 = 0 then stripZeros fuel ⟨d.digits / 10, d.exponent + 1⟩ else d

/-- The decimal without trailing zeros. -/
def normalized (d : Decimal) : Decimal := stripZeros (Dyadic.digitCount d.digits) d

/-- The text without an exponent. A whole number is followed by `wholeEnd`. -/
def positional (wholeEnd : String) (d : Decimal) : String :=
  let digits := Nat.toDigits 10 d.digits
  if 0 ≤ d.exponent then
    String.ofList (digits ++ List.replicate d.exponent.toNat '0') ++ wholeEnd
  else
    let places := (-d.exponent).toNat
    let padded := List.replicate (places + 1 - digits.length) '0' ++ digits
    let whole := padded.length - places
    String.ofList (padded.take whole) ++ "." ++ String.ofList (padded.drop whole)

end Decimal

/-- How numbers are written: the shortest decimal without an exponent, and these texts besides. -/
structure NumberFormat where
  /-- What follows a whole number. -/
  wholeEnd : String
  /-- The text of a value that is not a number. -/
  nan : String

/-- The text of a number. -/
def NumberFormat.write (f : NumberFormat) (x : Float) : String :=
  if x.isNaN then f.nan
  else
    let bits := x.toBits
    let sign := if bits.toNat / Nat.pow 2 63 = 1 then "-" else ""
    if x.isInf then sign ++ "inf"
    else if bits.toNat % Nat.pow 2 63 = 0 then sign ++ "0" ++ f.wholeEnd
    else sign ++ (Dyadic.ofBits bits).shortest.normalized.positional f.wholeEnd

end Combinatory
