import Combinatory.Term.Names
import Combinatory.Error

/-!
# Bracket abstraction

Drawing a variable out of a term: the result, applied to the variable, is the term again, and no longer
contains it. With it, λ-terms are compiled to combinator code.

## The model

`Term.bracket v t` is `none` if `v` does not occur free in `t`, and otherwise the abstraction of `v` from `t`.
The variable can be drawn through application, composition, join and random choice only; an occurrence below
any other head is an error. Which combinator is used depends on the sides on which the variable occurs, and on
whether a side is the variable itself.
-/

namespace Combinatory.Term

/-- Abstraction from an application `x y`, given the abstractions from `x` and from `y`. -/
def bracketApp (v : String) (x y : Term) : Option Term → Option Term → Option Term
  | none, none => none
  | none, some ty => if y = .var v then some x else some (comp x ty)
  | some tx, none => some (appAll (.const .c) [tx, y])
  | some tx, some ty =>
    if y = .var v then some (app (.const .w) tx) else some (appAll (.const .s) [tx, ty])

/-- Abstraction from a composition of `x` with `y`. -/
def bracketComp (v : String) (x y : Term) : Option Term → Option Term → Option Term
  | none, none => none
  | none, some ty => if y = .var v then some (app (.const .b) x) else some (comp (app (.const .b) x) ty)
  | some tx, none => some (comp (app (.const .cb) y) tx)
  | some tx, some ty => some (appAll (.const .s) [app (.const .b) tx, ty])

/-- Abstraction from a join of `x` and `y`. -/
def bracketJoin (x y : Term) : Option Term → Option Term → Option Term
  | none, none => none
  | none, some ty =>
    if ty = .const .i then some (app (.const .j) x) else some (comp (app (.const .j) x) ty)
  | some tx, none => some (comp (app (.const .j) y) tx)
  | some tx, some ty => some (join tx ty)

/-- Abstraction from a random choice between `x` and `y`. -/
def bracketRand (x y : Term) : Option Term → Option Term → Option Term
  | none, none => none
  | none, some ty => some (comp (app (.const .r) x) ty)
  | some tx, none => some (comp (app (.const .r) y) tx)
  | some tx, some ty => some (rand tx ty)

/-- Abstraction from a term through which the variable cannot be drawn. -/
def bracketOther (v : String) (t : Term) : Except Error (Option Term) :=
  if t.count v = 0 then .ok none else .error (.notImplemented (.abstraction v t))

/-- The abstraction of the variable `v` from a term; `none` if `v` is not free in it. -/
def bracket (v : String) : Term → Except Error (Option Term)
  | .var n => .ok (if n = v then some (.const .i) else none)
  | .app x y => return bracketApp v x y (← x.bracket v) (← y.bracket v)
  | .comp x y => return bracketComp v x y (← x.bracket v) (← y.bracket v)
  | .join x y => return bracketJoin x y (← x.bracket v) (← y.bracket v)
  | .rand x y => return bracketRand x y (← x.bracket v) (← y.bracket v)
  | t => bracketOther v t

/-! ### Compilation -/

/-- The code of `LAMBDA v. e`, given the code of `e`. -/
def compileLambda (v : String) (e : Term) : Except Error Term :=
  return (← e.bracket v).getD (app (.const .k) e)

/-- The code of `LETREC v d e`, given the codes of `d` and `e`. A definition that is not used is dropped, and
one that does not refer to itself needs no fixed point. -/
def compileLetrec (v : String) (d e : Term) : Except Error Term := do
  match ← e.bracket v with
  | none => return e
  | some te =>
    match ← d.bracket v with
    | none => return app te d
    | some td => return app te (app (.const .y) td)

/-- The combinator code of a term. Binders must bind a single variable. -/
def compile : Term → Except Error Term
  | .name n => .ok (.name n)
  | .const o => .ok (.const o)
  | .var n => .ok (.var n)
  | .unary u x => return .unary u (← x.compile)
  | .binary b x y => return .binary b (← x.compile) (← y.compile)
  | .lambda (.var v) e => do compileLambda v (← e.compile)
  | .letrec (.var v) d e => do compileLetrec v (← d.compile) (← e.compile)
  | t => .error (.notImplemented (.binder t))

end Combinatory.Term
