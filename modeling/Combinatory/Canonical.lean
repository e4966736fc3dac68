import Combinatory.NormalForm

/-!
# Canonical bound names

Bound variables are renamed to `a`, `b`, `c`, ... in the order in which their binders are met from left to
right, skipping the names that occur free in the whole term. Terms that differ only in the choice of bound
names get the same result.

## The model

A `Scope` pairs the names of the binders around a term with their new names, innermost first.
`Term.canonicalPattern` gives a new name to every variable of a pattern, in whatever position, and refuses a
name that the same pattern has bound before.
-/

namespace Combinatory

/-- Bound names and what they are renamed to, innermost first. -/
abbrev Scope : Type := List (String × String)

namespace Term

/-- Renames the variables of the pattern of a binder. The names that the pattern has bound so far are passed
along. -/
def canonicalPattern : Term → Scope → Fresh (Term × Scope)
  | .name n, bound => return (.name n, bound)
  | .const o, bound => return (.const o, bound)
  | .var n, bound => do
    if (bound.lookup n).isSome then throw (.invalidVariable (.boundTwice n))
    let m ← Fresh.name
    return (.var m, (n, m) :: bound)
  | .unary u x, bound => do
    let (x, bound) ← x.canonicalPattern bound
    return (.unary u x, bound)
  | .binary b x y, bound => do
    let (x, bound) ← x.canonicalPattern bound
    let (y, bound) ← y.canonicalPattern bound
    return (.binary b x y, bound)
  | .lambda p e, bound => do
    let (p, bound) ← p.canonicalPattern bound
    let (e, bound) ← e.canonicalPattern bound
    return (.lambda p e, bound)
  | .letrec p d e, bound => do
    let (p, bound) ← p.canonicalPattern bound
    let (d, bound) ← d.canonicalPattern bound
    let (e, bound) ← e.canonicalPattern bound
    return (.letrec p d e, bound)

/-- Renames the bound variables of a term in the given scope. -/
def canonicalIn : Term → Scope → Fresh Term
  | .name n, _ => return .name n
  | .const o, _ => return .const o
  | .var n, scope => return .var ((scope.lookup n).getD n)
  | .unary u x, scope => return .unary u (← x.canonicalIn scope)
  | .binary b x y, scope => do
    let x ← x.canonicalIn scope
    let y ← y.canonicalIn scope
    return .binary b x y
  | .lambda p e, scope => do
    let (p, bound) ← p.canonicalPattern []
    let e ← e.canonicalIn (bound ++ scope)
    return .lambda p e
  | .letrec p d e, scope => do
    let (p, bound) ← p.canonicalPattern []
    let d ← d.canonicalIn (bound ++ scope)
    let e ← e.canonicalIn (bound ++ scope)
    return .letrec p d e

/-- The term with canonical bound names. -/
def canonical (t : Term) : Except Error Term :=
  ((t.canonicalIn []).runWith (.avoiding t.freeNames)).1

/-- The affine normal form with canonical bound names. -/
def simplify (t : Term) : Except Error Term := t.normalize.canonical

end Term

end Combinatory
