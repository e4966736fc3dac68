/-!
# Tokens of TOML

The tokens of a TOML document, found by a machine that reads one character at a time. Comments and blanks separate
tokens. A quoted text is one token with its escapes resolved; texts over several lines are not supported.

## The model

`Mode.step` gives the tokens that a character completes and the next mode, or nothing if the character is not
allowed. `Mode.finish` says what the end of the document completes.
-/

namespace Combinatory.Toml

/-- A token. -/
inductive Token where
  /-- Spaces, tabs or a comment. -/
  | blank
  /-- The end of a line. -/
  | newline
  /-- One of the characters `[ ] = , .` and the braces. -/
  | mark (c : Char)
  /-- A run of letters, digits, underscores and signs. -/
  | word (chars : List Char)
  /-- A quoted text. -/
  | text (chars : List Char)
  deriving DecidableEq, Repr

/-- What the machine is in the middle of. -/
inductive Mode where
  /-- Nothing: between tokens. -/
  | start
  /-- A carriage return, which a line feed has to follow. -/
  | lineEnd
  /-- A comment. -/
  | comment
  /-- A word; its characters so far, in reverse. -/
  | word (chars : List Char)
  /-- A text in single quotes. -/
  | literal (chars : List Char)
  /-- A text in double quotes. -/
  | basic (chars : List Char)
  /-- A text in double quotes, after a backslash. -/
  | escape (chars : List Char)
  /-- A text in double quotes, before the given number of hexadecimal digits of a code point. -/
  | codePoint (chars : List Char) (missing value : Nat)
  deriving DecidableEq, Repr

/-- The characters of words. -/
def isWordChar (c : Char) : Bool := c.isAlphanum || c == '_' || c == '-' || c == '+'

/-- The characters that stand for themselves as tokens. -/
def isMark (c : Char) : Bool := ['[', ']', '\x7b', '\x7d', '=', ',', '.'].contains c

/-- Controls other than the tab, which neither texts nor comments may contain. -/
def isForbidden (c : Char) : Bool := (c.toNat < 0x20 && c != '\t') || c.toNat == 0x7F

/-- The value of a hexadecimal digit. -/
def hexValue? (c : Char) : Option Nat :=
  if c.isDigit then some (c.toNat - '0'.toNat)
  else if 'a' ≤ c ∧ c ≤ 'f' then some (c.toNat - 'a'.toNat + 10)
  else if 'A' ≤ c ∧ c ≤ 'F' then some (c.toNat - 'A'.toNat + 10)
  else none

/-- The character that an escape of one letter stands for. -/
def escaped? : Char → Option Char
  | 'b' => some '\x08'
  | 't' => some '\t'
  | 'n' => some '\n'
  | 'f' => some '\x0c'
  | 'r' => some '\r'
  | 'e' => some '\x1b'
  | '"' => some '"'
  | '\\' => some '\\'
  | _ => none

namespace Mode

/-- A character between tokens. -/
def begin (c : Char) : Option (List Token × Mode) :=
  if c = ' ' ∨ c = '\t' then some ([.blank], .start)
  else if c = '\n' then some ([.newline], .start)
  else if c = '\r' then some ([], .lineEnd)
  else if c = '#' then some ([.blank], .comment)
  else if c = '"' then some ([], .basic [])
  else if c = '\'' then some ([], .literal [])
  else if isMark c then some ([.mark c], .start)
  else if isWordChar c then some ([], .word [c])
  else none

/-- One character. -/
def step : Mode → Char → Option (List Token × Mode)
  | .start, c => begin c
  | .lineEnd, c => if c = '\n' then some ([.newline], .start) else none
  | .comment, c =>
    if c = '\n' then some ([.newline], .start)
    else if c = '\r' then some ([], .lineEnd)
    else if isForbidden c then none
    else some ([], .comment)
  | .word chars, c =>
    if isWordChar c then some ([], .word (c :: chars))
    else (begin c).map fun (tokens, mode) => (.word chars.reverse :: tokens, mode)
  | .literal chars, c =>
    if c = '\'' then some ([.text chars.reverse], .start)
    else if isForbidden c then none
    else some ([], .literal (c :: chars))
  | .basic chars, c =>
    if c = '"' then some ([.text chars.reverse], .start)
    else if c = '\\' then some ([], .escape chars)
    else if isForbidden c then none
    else some ([], .basic (c :: chars))
  | .escape chars, c =>
    if c = 'x' then some ([], .codePoint chars 2 0)
    else if c = 'u' then some ([], .codePoint chars 4 0)
    else if c = 'U' then some ([], .codePoint chars 8 0)
    else (escaped? c).map fun d => ([], .basic (d :: chars))
  | .codePoint chars missing value, c => do
    let value := value * 16 + (← hexValue? c)
    if missing > 1 then some ([], .codePoint chars (missing - 1) value)
    else if value.isValidChar then some ([], .basic (Char.ofNat value :: chars))
    else none

/-- The end of the document. -/
def finish : Mode → Option (List Token)
  | .start | .comment => some []
  | .word chars => some [.word chars.reverse]
  | _ => none

/-- The tokens of a text that is read in the given mode. -/
def tokens? : Mode → List Char → Option (List Token)
  | mode, [] => mode.finish
  | mode, c :: cs => do
    let (done, mode) ← mode.step c
    return done ++ (← mode.tokens? cs)

end Mode

/-- The tokens of a document, which may start with a byte order mark. -/
def tokens? (document : String) : Option (List Token) :=
  match document.toList with
  | '\ufeff' :: cs => Mode.start.tokens? cs
  | cs => Mode.start.tokens? cs

end Combinatory.Toml
