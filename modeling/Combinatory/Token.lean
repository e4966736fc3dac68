import Combinatory.Error
import Combinatory.Text.Blank

/-!
# Tokens

A source text is split into words at blanks. Every word must be a keyword (upper-case letters), a local name
(a lower-case letter, then lower-case letters and digits) or a global name (identifiers joined by points).
Words and tokens carry the byte offset at which they start in the UTF-8 text.

## The model

`wordsFrom` works on the list of characters from the right: a character that is not a blank either joins
the word that starts right after it or is a word of its own. The classes of words are predicates on lists of
characters. All of them are ASCII only, so any other character makes a word invalid.

`Token.lex` stands for a lexer that is put together from the parts of a library of parser combinators: a word is
a repetition of characters that are no blanks, with a check of its class; it may have blanks around it; and words
are repeated up to the end of the text. Of these parts the following is taken for granted, and not derived from
their code. A repetition takes as much as it can, so words are maximal. Blanks are the characters of `Text.isBlank`,
and they are skipped before and after each word, but not where there is no word: hence a text of blanks only is an
error, and the empty text is not. A word that fails its check ends the reading, with this word as the only error.
-/

namespace Combinatory

open Text (isBlank)

/-- A maximal run of characters without blanks. -/
structure Word where
  /-- The characters. -/
  chars : List Char
  /-- The byte offset of the first one. -/
  offset : Nat
  deriving DecidableEq, Repr

/-- The text of a word. -/
def Word.text (w : Word) : String := String.ofList w.chars

/-- Puts a character in front of words that start after it; it becomes part of a word that is adjacent. -/
def Word.prepend (c : Char) (offset : Nat) : List Word → List Word
  | [] => [⟨[c], offset⟩]
  | w :: ws =>
    if w.offset = offset + c.utf8Size then ⟨c :: w.chars, offset⟩ :: ws
    else ⟨[c], offset⟩ :: w :: ws

/-- The words of a text that starts at the given offset. -/
def wordsFrom (offset : Nat) : List Char → List Word
  | [] => []
  | c :: cs =>
    let rest := wordsFrom (offset + c.utf8Size) cs
    if isBlank c then rest else Word.prepend c offset rest

/-- The words of a text. -/
def words (source : String) : List Word := wordsFrom 0 source.toList

/-! ### Classes of words -/

/-- Upper-case letters, at least one. -/
def isKeyword (w : List Char) : Bool := !w.isEmpty && w.all Char.isUpper

/-- A lower-case letter followed by lower-case letters and digits. -/
def isLocalName : List Char → Bool
  | [] => false
  | c :: cs => c.isLower && cs.all fun d => d.isLower || d.isDigit

/-- A letter or underscore followed by letters, digits and underscores. -/
def isIdentifier : List Char → Bool
  | [] => false
  | c :: cs => (c.isAlpha || c == '_') && cs.all fun d => d.isAlphanum || d == '_'

/-- The parts of a word between its points; there is one more than there are points. -/
def segments : List Char → List (List Char)
  | [] => [[]]
  | c :: cs =>
    match c == '.', segments cs with
    | true, parts => [] :: parts
    | false, [] => [[c]]
    | false, part :: parts => (c :: part) :: parts

/-- Identifiers joined by points, at least two. -/
def isGlobalName (w : List Char) : Bool := w.contains '.' && (segments w).all isIdentifier

/-- Whether a text can name a variable. -/
def isNameToken (s : String) : Bool := isLocalName s.toList || isGlobalName s.toList

/-! ### Tokens -/

/-- A classified word, with its byte offset. -/
inductive Token where
  /-- A keyword. -/
  | keyword (text : String) (offset : Nat)
  /-- A name. -/
  | name (text : String) (offset : Nat)
  deriving DecidableEq, Repr

namespace Token

/-- The text of a token. -/
def text : Token → String
  | .keyword s _ => s
  | .name s _ => s

/-- The byte offset of a token. -/
def offset : Token → Nat
  | .keyword _ p => p
  | .name _ p => p

/-- The token that a word is. -/
def ofWord (w : Word) : Except Error Token :=
  if isKeyword w.chars then .ok (.keyword w.text w.offset)
  else if isLocalName w.chars || isGlobalName w.chars then .ok (.name w.text w.offset)
  else .error (.lex (.word w.text))

/-- The tokens of a source text. The first word that is no token is the error; a text of blanks only is one
as well, while the empty text has no tokens. -/
def lex (source : String) : Except Error (List Token) :=
  if source ≠ "" ∧ words source = [] then .error (.lex .blank)
  else (words source).mapM ofWord

end Token

end Combinatory
