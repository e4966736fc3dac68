import Combinatory.Toml.Number

/-!
# TOML documents

A document is a list of statements: headers that open a table, and entries that give a value to a key. The values
are numbers and inline tables of numbers; a document with any other value is not read.

## The model

A statement ends with its line, except that an inline table may go over several lines: between its braces the end of
a line is a space like a blank, around the commas, the keys and the values, though not within a key. Keys are dotted
paths of bare or quoted parts. Which paths a document may use, and how often, is for its reader to say.
-/

namespace Combinatory.Toml

/-- The value of a key. -/
inductive Value where
  /-- A number. -/
  | number (x : Float)
  /-- An inline table. -/
  | inline (entries : List (List String × Float))

/-- A statement of a document. -/
inductive Statement where
  /-- A header: the entries that follow are in this table. -/
  | table (path : List String)
  /-- An entry. -/
  | entry (path : List String) (value : Value)

/-- Puts a token in front of the first list. -/
def prepend (t : Token) : List (List Token) → List (List Token)
  | [] => [[t]]
  | part :: parts => (t :: part) :: parts

/-- The token lists between the tokens that satisfy `p`; there is one more than there are such tokens. -/
def splitAt (p : Token → Bool) : List Token → List (List Token)
  | [] => [[]]
  | t :: ts => if p t then [] :: splitAt p ts else prepend t (splitAt p ts)

/-- Splits a document into the tokens of its statements: at the ends of lines outside of braces. -/
def lines : (depth : Nat) → List Token → List (List Token)
  | _, [] => [[]]
  | depth, t :: ts =>
    let depth := if t = .mark '\x7b' then depth + 1 else if t = .mark '\x7d' then depth - 1 else depth
    if t = .newline ∧ depth = 0 then [] :: lines depth ts else prepend t (lines depth ts)

/-- Drops tokens that satisfy `p` from both ends. -/
def trim (p : Token → Bool) (ts : List Token) : List Token :=
  ((ts.dropWhile p).reverse.dropWhile p).reverse

/-- What may stand between the tokens of a line. -/
def isBlank (t : Token) : Bool := t = .blank

/-- What may stand between the tokens of an inline table, where the end of a line is a blank too. -/
def isSpace (t : Token) : Bool := t = .blank ∨ t = .newline

/-- One part of a key. -/
def keyPart? (ts : List Token) : Option String :=
  match trim isBlank ts with
  | [.word chars] => if chars.contains '+' then none else some (String.ofList chars)
  | [.text chars] => some (String.ofList chars)
  | _ => none

/-- A dotted key. -/
def key? (ts : List Token) : Option (List String) := (splitAt (· = .mark '.') ts).mapM keyPart?

/-- The characters of tokens that make up a number. -/
def numeral? : List Token → Option (List Char)
  | [] => some []
  | .word chars :: ts => (numeral? ts).map (chars ++ ·)
  | .mark '.' :: ts => (numeral? ts).map ('.' :: ·)
  | _ => none

/-- The key and the value tokens of an entry, in which tokens that satisfy `p` may stand around both. -/
def keyAndValue? (p : Token → Bool) (ts : List Token) : Option (List String × List Token) := do
  let path ← key? (trim p (ts.takeWhile (· ≠ .mark '=')))
  match ts.dropWhile (· ≠ .mark '=') with
  | _ :: value => return (path, trim p value)
  | [] => none

/-- An entry of an inline table. Its value is a number. -/
def inlineEntry? (ts : List Token) : Option (List String × Float) := do
  let (path, value) ← keyAndValue? isSpace ts
  return (path, ← number? (← numeral? value))

/-- The entries between the braces of an inline table. They are separated by commas, and there may be one more
comma at the end. -/
def inlineEntries? (ts : List Token) : Option (List (List String × Float)) :=
  let parts := (splitAt (· = .mark ',') ts).map (trim isSpace)
  let parts := if parts.getLast? = some [] then parts.dropLast else parts
  parts.mapM inlineEntry?

/-- A value. -/
def value? : List Token → Option Value
  | .mark '\x7b' :: ts =>
    if ts.getLast? = some (.mark '\x7d') then (inlineEntries? ts.dropLast).map .inline else none
  | ts => do return .number (← number? (← numeral? ts))

/-- The statement on a line, if there is one. -/
def statement? (ts : List Token) : Option (Option Statement) :=
  match trim isBlank ts with
  | [] => some none
  | .mark '[' :: ts =>
    if ts.getLast? = some (.mark ']') then (key? ts.dropLast).map fun path => some (.table path) else none
  | ts => do
    let (path, value) ← keyAndValue? isBlank ts
    return some (.entry path (← value? value))

/-- The statements of a document. -/
def statements? (document : String) : Option (List Statement) := do
  let found ← (lines 0 (← tokens? document)).mapM statement?
  return found.filterMap id

end Combinatory.Toml
