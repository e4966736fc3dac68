import Combinatory.Error

/-!
# Spines

An application spine lists a head and the arguments that it is applied to. As a term a spine is a chain of
`STACK` cells that ends with `NIL`.

## The model

`Term.toStackOnto head args tail` puts the arguments of the application `head`, then `args`, in front of
`tail`. `Term.fromStack` applies the first item of a spine to the others; it fails on anything that is not a
spine with at least one item, and reports the term in which the applications read so far are folded.
-/

namespace Combinatory.Term

/-- The spine of `head` applied to `args`, with `tail` at its end. -/
def toStackOnto (head : Term) (args : List Term) (tail : Term) : Term :=
  match head with
  | .app x y => toStackOnto x (y :: args) tail
  | h => stack h (stackAll args tail)

/-- The spine of a term. -/
def toStack (t : Term) : Term := toStackOnto t [] (.const .nil)

/-- Applies `x` to the items of a spine. -/
def applyStack (x : Term) : Term → Except Error Term
  | .const .nil => .ok x
  | .stack y tail => applyStack (.app x y) tail
  | t => .error (.unmatched "from_stack" (.stack x t))

/-- The application that a spine stands for. -/
def fromStack : Term → Except Error Term
  | .stack x tail => applyStack x tail
  | t => .error (.unmatched "from_stack" t)

end Combinatory.Term
