/-!
# Written keys of TOML

A key of letters, digits, underscores and hyphens is written as it is. Any other key is quoted: with double quotes
if nothing in it needs an escape, otherwise with single quotes if that is possible without escapes, and otherwise
with double quotes and escapes.
-/

namespace Combinatory.Toml

/-- Whether a key needs no quotes. -/
def isBareKey (s : String) : Bool :=
  s ≠ "" && s.toList.all fun c => c.isAlphanum || c == '_' || c == '-'

/-- Whether a character is a control other than the tab. -/
def isControl (c : Char) : Bool := (c.toNat < 0x20 && c != '\t') || c.toNat == 0x7F

/-- A number in base 16 with four digits, in upper case. -/
def hexFour (n : Nat) : String :=
  let ds := (Nat.toDigits 16 n).map Char.toUpper
  String.ofList (List.replicate (4 - ds.length) '0' ++ ds)

/-- How a character is written between double quotes. -/
def basicChar (c : Char) : String :=
  match c with
  | '"' => "\\\""
  | '\\' => "\\\\"
  | '\x08' => "\\b"
  | '\t' => "\\t"
  | '\n' => "\\n"
  | '\x0c' => "\\f"
  | '\r' => "\\r"
  | c => if isControl c then "\\u" ++ hexFour c.toNat else String.singleton c

/-- A text between double quotes. -/
def basicText (s : String) : String := "\"" ++ String.join (s.toList.map basicChar) ++ "\""

/-- A written key. -/
def writeKey (s : String) : String :=
  let cs := s.toList
  if isBareKey s then s
  else if cs.any isControl then basicText s
  else if !(cs.contains '"' || cs.contains '\\') then basicText s
  else if !cs.contains '\'' then "'" ++ s ++ "'"
  else basicText s

end Combinatory.Toml
