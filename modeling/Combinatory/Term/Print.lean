import Combinatory.Term.Basic

/-!
# Printing terms

The written form of a term is prefix notation: the spelling of the head, then the children, separated by
single spaces. A name is written as it is.
-/

namespace Combinatory.Term

/-- The words of the written form. -/
def tokens : Term → List String
  | .name n => [n]
  | .const o => [o.spelling]
  | .var n => [Head.var.spelling, n]
  | .unary u x => u.spelling :: x.tokens
  | .binary b x y => b.spelling :: (x.tokens ++ y.tokens)
  | .lambda p e => Head.lambda.spelling :: (p.tokens ++ e.tokens)
  | .letrec p d e => Head.letrec.spelling :: (p.tokens ++ d.tokens ++ e.tokens)

/-- The written form of a term. -/
def print (t : Term) : String := " ".intercalate t.tokens

/-- The display form of a term: its written form, marked as one. -/
def display (t : Term) : String := s!"Term({t.print})"

/-- The written form of a layer. -/
def Layer.print : Layer → String
  | .name n => n
  | .node h args => " ".intercalate (h.spelling :: args.flatMap tokens)

end Combinatory.Term
