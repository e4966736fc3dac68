import Combinatory.Text.Unprintable

/-!
# Quoted text

Text between double quotes, for messages. A double quote and a backslash are written after a backslash, the
usual controls by their letters, and every other unprintable character by its code point in braces.
-/

namespace Combinatory.Text

/-- The digits of a number in base 16, in lower case. -/
def hexDigits (n : Nat) : String := String.ofList (Nat.toDigits 16 n)

/-- How a character is written between quotes. -/
def quotedChar (c : Char) : String :=
  match c with
  | '"' => "\\\""
  | '\\' => "\\\\"
  | '\n' => "\\n"
  | '\r' => "\\r"
  | '\t' => "\\t"
  | '\x00' => "\\0"
  | c => if isUnprintable c then "\\u\x7b" ++ hexDigits c.toNat ++ "\x7d" else String.singleton c

/-- A text between double quotes. -/
def quoted (s : String) : String := "\"" ++ String.join (s.toList.map quotedChar) ++ "\""

end Combinatory.Text
