import Combinatory.Token

/-!
# Reading terms

The written form of a term is prefix notation with fixed arities, so it needs no look-ahead: a keyword is
followed by as many terms as its arity says, and `VAR` by one name.

## The model

`readTerms tokens n` reads `n` terms from the front of `tokens`. A keyword of arity `a` in front leaves
`a + n` terms to be read instead of `n + 1`; of these the first `a` become its children. The recursion is
on the tokens, and the number of terms outstanding is what the error at the end of the input reports.
-/

namespace Combinatory

/-- Puts a head on top of its children, which are the first terms of a list. -/
def Head.assemble : Head → List Term → List Term
  | .const o, ts => .const o :: ts
  | .unary u, x :: ts => .unary u x :: ts
  | .binary b, x :: y :: ts => .binary b x y :: ts
  | .lambda, p :: e :: ts => .lambda p e :: ts
  | .letrec, p :: d :: e :: ts => .letrec p d e :: ts
  | _, ts => ts

namespace Term

/-- Reads the given number of terms and returns them with the tokens that are left. -/
def readTerms : List Token → Nat → Except Error (List Term × List Token)
  | tokens, 0 => .ok ([], tokens)
  | [], n + 1 => .error (.unexpectedEnd (n + 1))
  | .name w p :: _, _ + 1 => .error (.unrecognized w p)
  | .keyword w p :: tokens, n + 1 =>
    match Head.ofSpelling? w with
    | none => .error (.unrecognized w p)
    | some .var =>
      match tokens with
      | [] => .error (.unexpectedEnd (n + 1))
      | .keyword k q :: _ => .error (.invalidVariable (.keyword k q))
      | .name x _ :: tokens => do
        let (terms, rest) ← readTerms tokens n
        return (.var x :: terms, rest)
    | some h => do
      let (terms, rest) ← readTerms tokens (h.arity + n)
      return (h.assemble terms, rest)

/-- The term that a source text is the written form of, up to the blanks between words. -/
def parse (source : String) : Except Error Term := do
  let tokens ← Token.lex source
  match ← readTerms tokens 1 with
  | (_, token :: _) => .error (.trailing token.text token.offset)
  | (t :: _, []) => .ok t
  | ([], []) => .error (.unexpectedEnd 1)

end Term

end Combinatory
