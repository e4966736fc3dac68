import Combinatory.Error

/-!
# Checked construction of terms

Terms from the spelling of a head and a list of children. The head must be one of the calculus, it must have
as many children as its arity, and a name must stand below `VAR` and nowhere else.
-/

namespace Combinatory.Term

/-- The constant with the given spelling. -/
def ofSpelling (s : String) : Except Error Term :=
  match Head.ofSpelling? s with
  | none => .error (.unrecognized s 0)
  | some (.const o) => .ok (.const o)
  | some h => .error (.arityMismatch s h.arity 0)

/-- Refuses the first bare name among the children of a head. -/
def refuseNames (h : Head) : List Term → Except Error Unit
  | [] => .ok ()
  | .name n :: _ => .error (.invalidVariable (.bare n h))
  | _ :: ts => refuseNames h ts

/-- The term with the given head and children. Of several faults the first counts: the head is unknown,
the number of children is wrong, a name is missing below `VAR`, a name stands below another head. -/
def node (s : String) (args : List Term) : Except Error Term :=
  match Head.ofSpelling? s, args with
  | none, _ => .error (.unrecognized s 0)
  | some (.const o), [] => .ok (.const o)
  | some .var, [.name n] => .ok (.var n)
  | some .var, [x] => .error (.invalidVariable (.notAName x))
  | some (.unary u), [x] => do refuseNames (.unary u) [x]; return .unary u x
  | some (.binary b), [x, y] => do refuseNames (.binary b) [x, y]; return .binary b x y
  | some .lambda, [p, e] => do refuseNames .lambda [p, e]; return .lambda p e
  | some .letrec, [p, d, e] => do refuseNames .letrec [p, d, e]; return .letrec p d e
  | some h, args => .error (.arityMismatch s h.arity args.length)

end Combinatory.Term
