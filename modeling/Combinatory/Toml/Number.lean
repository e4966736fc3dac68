import Combinatory.Toml.Token

/-!
# Numbers of TOML

Integers in base ten, sixteen, eight and two, and floating-point numbers. Underscores may stand between digits. A
decimal number has no superfluous zeros in front. Every number is read as a double; an integer must fit into 64
bits, and a number that is too large for a double is refused.
-/

namespace Combinatory.Toml

/-- The digits of a number without the underscores, each of which must stand between two digits. -/
def digits? (isDigit : Char → Bool) : List Char → Option (List Char)
  | [] => none
  | [c] => if isDigit c then some [c] else none
  | c :: '_' :: cs => if isDigit c then (digits? isDigit cs).map (c :: ·) else none
  | c :: cs => if isDigit c then (digits? isDigit cs).map (c :: ·) else none

/-- The value of digits in a base. -/
def valueOf (base : Nat) (digits : List Char) : Nat :=
  digits.foldl (fun n c => n * base + (hexValue? c).getD 0) 0

/-- The digits of a decimal number without superfluous zeros. -/
def decimalDigits? (cs : List Char) : Option (List Char) := do
  let ds ← digits? Char.isDigit cs
  if ds.length > 1 ∧ ds.head? = some '0' then none else some ds

/-- The natural number that digits after a base mark stand for. -/
def based? (base : Nat) (cs : List Char) : Option Nat :=
  (digits? (fun c => (hexValue? c).any (· < base)) cs).map (valueOf base)

/-- The double nearest to `n * 10 ^ e`, unless it is too large. -/
def scaled? (n : Nat) (e : Int) : Option Float :=
  let magnitude : Int := (Nat.toDigits 10 n).length + e
  if n = 0 ∨ magnitude < -330 then some 0
  else if magnitude > 310 then none
  else
    let x := Float.ofScientific n (e < 0) e.natAbs
    if x.isInf then none else some x

/-- The double nearest to an integer of at most 64 bits. -/
def integer? (negative : Bool) (n : Nat) : Option Float :=
  if negative then if n ≤ Nat.pow 2 63 then some (if n = 0 then 0 else -(Float.ofScientific n false 0)) else none
  else if n < Nat.pow 2 64 then some (Float.ofScientific n false 0) else none

/-- An exponent with its sign. -/
def exponent? : List Char → Option Int
  | '-' :: cs => (digits? Char.isDigit cs).map fun ds => -(valueOf 10 ds : Int)
  | '+' :: cs => (digits? Char.isDigit cs).map fun ds => (valueOf 10 ds : Int)
  | cs => (digits? Char.isDigit cs).map fun ds => (valueOf 10 ds : Int)

/-- A floating-point number without a sign: whole digits, then a fraction or an exponent or both. -/
def unsignedFloat? (cs : List Char) : Option Float := do
  let isMark (c : Char) : Bool := c == 'e' || c == 'E'
  let mantissa := cs.takeWhile (!isMark ·)
  let e ← match cs.dropWhile (!isMark ·) with
    | [] => some 0
    | _ :: rest => exponent? rest
  let whole ← decimalDigits? (mantissa.takeWhile (· != '.'))
  match mantissa.dropWhile (· != '.') with
  | [] => scaled? (valueOf 10 whole) e
  | _ :: rest =>
    let fraction ← digits? Char.isDigit rest
    scaled? (valueOf 10 (whole ++ fraction)) (e - fraction.length)

/-- A number without a sign. -/
def unsigned? (negative : Bool) (cs : List Char) : Option Float :=
  if cs = ['i', 'n', 'f'] then some (if negative then -(1 / 0) else 1 / 0)
  else if cs = ['n', 'a', 'n'] then some (0 / 0)
  else if cs.all fun c => c.isDigit || c == '_' then do integer? negative (valueOf 10 (← decimalDigits? cs))
  else (unsignedFloat? cs).map fun x => if negative then -x else x

/-- A number. -/
def number? : List Char → Option Float
  | '0' :: 'x' :: cs => do integer? false (← based? 16 cs)
  | '0' :: 'o' :: cs => do integer? false (← based? 8 cs)
  | '0' :: 'b' :: cs => do integer? false (← based? 2 cs)
  | '-' :: cs => unsigned? true cs
  | '+' :: cs => unsigned? false cs
  | cs => unsigned? false cs

end Combinatory.Toml
