import Combinatory.Canonical
import Combinatory.Derived

/-!
# Decompilation

Combinator code back to λ-terms. The head of an application is read together with its arguments: a combinator
that has all its arguments is contracted, one that lacks some becomes a `LAMBDA` with fresh names. An argument
that a contraction would copy is shared by a `LETREC`, unless it is a variable.

## The model

`Term.decompileSpine h as` decompiles `h` applied to `as`, and `Term.decompileOnto t as` applies the decompiled
`t` to the decompiled `as`. The names are drawn in a fixed order: those that a combinator needs come before its
arguments are decompiled, except that the arguments of `Y`, `J` and `R` come first.

`Term.weight` measures code: each combinator weighs more than what the missing arguments, or its definition,
add. It decreases from a spine to all the spines that it is made from, so decompilation ends on every term, also
where contraction alone would go on for ever.
-/

namespace Combinatory

/-- The weight of a constant. -/
def Const.weight : Const → Nat
  | .b => 5
  | .c => 4
  | .w => 3
  | .s => 4
  | .ci => 8
  | .cb => 12
  | .u => 65
  | .v => 77
  | .p => 93
  | _ => 1

/-- The weight that a binary head adds to that of its children, less one. -/
def Binary.weight : Binary → Nat
  | .app => 1
  | .comp => 7
  | _ => 0

namespace Term

/-- The weight of code. -/
def weight : Term → Nat
  | .name _ | .var _ => 1
  | .const o => o.weight
  | .unary _ x => x.weight + 1
  | .binary b x y => x.weight + y.weight + b.weight + 1
  | .lambda p e => p.weight + e.weight + 1
  | .letrec p d e => p.weight + d.weight + e.weight + 1

/-- The weight of the arguments of a spine. -/
@[simp] def argsWeight : List Term → Nat
  | [] => 0
  | a :: as => a.weight + 1 + argsWeight as

@[simp] theorem weight_reversedApplication : reversedApplication.weight = 7 := rfl

@[simp] theorem weight_reversedComposition : reversedComposition.weight = 11 := rfl

@[simp] theorem weight_closure : closure.weight = 64 := rfl

@[simp] theorem weight_reflexiveClosure : reflexiveClosure.weight = 76 := rfl

@[simp] theorem weight_closureOfJoin : closureOfJoin.weight = 92 := rfl

/-- The least fixed point of `x`, written with the names `y` and `z`. -/
def fixpoint (x : Term) (y z : String) : Term :=
  .letrec (.var y) (.lambda (.var z) (app x (app (.var y) (.var z)))) (.var y)

mutual

/-- Decompiles `h` applied to `as`. -/
def decompileSpine (h : Term) (as : List Term) : Fresh Term :=
  match h, as with
  | .app x y, as => decompileSpine x (y :: as)
  | .comp x y, as => decompileSpine (.const .b) (x :: y :: as)
  | .var n, as => decompileOnto (.var n) as
  | .const .hole, as => decompileOnto (.const .hole) as
  | .const .top, _ => return .const .top
  | .const .bot, _ => return .const .bot
  -- identity
  | .const .i, [] => do
    let x ← Fresh.name
    return .lambda (.var x) (.var x)
  | .const .i, x :: as => decompileSpine x as
  -- constancy
  | .const .k, [] => do
    let x ← Fresh.name
    let y ← Fresh.name
    return .lambda (.var x) (.lambda (.var y) (.var x))
  | .const .k, [x] => do
    let y ← Fresh.name
    let tx ← decompileSpine x []
    return .lambda (.var y) tx
  | .const .k, x :: _ :: as => decompileSpine x as
  -- composition
  | .const .b, [] => do
    let x ← Fresh.name
    let y ← Fresh.name
    let z ← Fresh.name
    return .lambda (.var x) (.lambda (.var y) (.lambda (.var z) (app (.var x) (app (.var y) (.var z)))))
  | .const .b, [x] => do
    let y ← Fresh.name
    let z ← Fresh.name
    let t ← decompileSpine x [app (.var y) (.var z)]
    return .lambda (.var y) (.lambda (.var z) t)
  | .const .b, [x, y] => do
    let z ← Fresh.name
    let t ← decompileSpine x [app y (.var z)]
    return .lambda (.var z) t
  | .const .b, x :: y :: z :: as => decompileSpine x (app y z :: as)
  -- exchange
  | .const .c, [] => do
    let x ← Fresh.name
    let y ← Fresh.name
    let z ← Fresh.name
    return .lambda (.var x) (.lambda (.var y) (.lambda (.var z) (appAll (.var x) [.var z, .var y])))
  | .const .c, [x] => do
    let y ← Fresh.name
    let z ← Fresh.name
    let t ← decompileSpine x [.var z, .var y]
    return .lambda (.var y) (.lambda (.var z) t)
  | .const .c, [x, y] => do
    let z ← Fresh.name
    let t ← decompileSpine x [.var z, y]
    return .lambda (.var z) t
  | .const .c, x :: y :: z :: as => decompileSpine x (z :: y :: as)
  -- duplication
  | .const .w, [] => do
    let x ← Fresh.name
    let y ← Fresh.name
    return .lambda (.var x) (.lambda (.var y) (appAll (.var x) [.var y, .var y]))
  | .const .w, [x] => do
    let y ← Fresh.name
    let tx ← decompileSpine x []
    return .lambda (.var y) (appAll tx [.var y, .var y])
  | .const .w, x :: .var y :: as => do
    let t ← decompileSpine x [.var y, .var y]
    decompileOnto t as
  | .const .w, x :: y :: as => do
    let v ← Fresh.name
    let ty ← decompileSpine y []
    let t ← decompileSpine x [.var v, .var v]
    decompileOnto (.letrec (.var v) ty t) as
  -- distribution
  | .const .s, [] => do
    let x ← Fresh.name
    let y ← Fresh.name
    let z ← Fresh.name
    return .lambda (.var x) (.lambda (.var y) (.lambda (.var z)
      (appAll (.var x) [.var z, app (.var y) (.var z)])))
  | .const .s, [x] => do
    let y ← Fresh.name
    let z ← Fresh.name
    let tx ← decompileSpine x []
    return .lambda (.var y) (.lambda (.var z) (appAll tx [.var z, app (.var y) (.var z)]))
  | .const .s, [x, y] => do
    let z ← Fresh.name
    let tx ← decompileSpine x []
    let ty ← decompileSpine y []
    return .lambda (.var z) (appAll tx [.var z, app ty (.var z)])
  | .const .s, x :: y :: .var z :: as => do
    let t ← decompileSpine x [.var z, app y (.var z)]
    decompileOnto t as
  | .const .s, x :: y :: z :: as => do
    let v ← Fresh.name
    let tz ← decompileSpine z []
    let t ← decompileSpine x [.var v, app y (.var v)]
    decompileOnto (.letrec (.var v) tz t) as
  -- fixed points
  | .const .y, [] => do
    let x ← Fresh.name
    let y ← Fresh.name
    let z ← Fresh.name
    return .lambda (.var x) (fixpoint (.var x) y z)
  | .const .y, x :: as => do
    let tx ← decompileSpine x []
    let y ← Fresh.name
    let z ← Fresh.name
    decompileOnto (fixpoint tx y z) as
  -- joins and random choice
  | .const .j, as => decompileOperator .join as
  | .const .r, as => decompileOperator .rand as
  -- comparisons
  | .const .qless, as => decompileComparison .less as
  | .const .qnless, as => decompileComparison .nless as
  | .const .qequal, as => decompileComparison .equal as
  -- derived combinators
  | .const .ci, as => decompileSpine reversedApplication as
  | .const .cb, as => decompileSpine reversedComposition as
  | .const .u, as => decompileSpine closure as
  | .const .v, as => decompileSpine reflexiveClosure as
  | .const .p, as => decompileSpine closureOfJoin as
  | .const .a, _ => throw (.notImplemented (.undefinedConst .a))
  -- what is no combinator code
  | .const .nil, as => throw (.unmatched "decompile_stack" (stackAll (.const .nil :: as) (.const .nil)))
  | .unary u x, as => do
    let tx ← decompileSpine x []
    decompileOnto (.unary u tx) as
  | .binary b x y, as => do
    let tx ← decompileSpine x []
    let ty ← decompileSpine y []
    decompileOnto (.binary b tx ty) as
  | .lambda p e, as => do
    let tp ← decompileSpine p []
    let te ← decompileSpine e []
    decompileOnto (.lambda tp te) as
  | .letrec p d e, as => do
    let tp ← decompileSpine p []
    let td ← decompileSpine d []
    let te ← decompileSpine e []
    decompileOnto (.letrec tp td te) as
  | .name n, as => throw (.unmatched "decompile_stack" (stackAll (.name n :: as) (.const .nil)))
  termination_by h.weight + argsWeight as
  decreasing_by
    all_goals simp [weight, Const.weight, Binary.weight]
    all_goals omega

/-- Decompiles the operator `b` applied to `as`, with fresh binders for missing operands. -/
def decompileOperator (b : Binary) (as : List Term) : Fresh Term :=
  match as with
  | [] => do
    let x ← Fresh.name
    let y ← Fresh.name
    return .lambda (.var x) (.lambda (.var y) (.binary b (.var x) (.var y)))
  | [x] => do
    let tx ← decompileSpine x []
    let y ← Fresh.name
    return .lambda (.var y) (.binary b tx (.var y))
  | x :: y :: as => do
    let tx ← decompileSpine x []
    let ty ← decompileSpine y []
    decompileOnto (.binary b tx ty) as
  termination_by argsWeight as
  decreasing_by all_goals simp; try omega

/-- Decompiles the comparison `b` of quoted operands applied to `as`. An operand that is not quoted is matched
with a quoted variable. -/
def decompileComparison (b : Binary) (as : List Term) : Fresh Term :=
  match as with
  | [] => do
    let x ← Fresh.name
    let y ← Fresh.name
    return .lambda (.quote (.var x)) (.lambda (.quote (.var y)) (.binary b (.var x) (.var y)))
  | [.quote x] => do
    let y ← Fresh.name
    let tx ← decompileSpine x []
    return .lambda (.quote (.var y)) (.binary b tx (.var y))
  | [x] => do
    let u ← Fresh.name
    let v ← Fresh.name
    let tx ← decompileSpine x []
    return .letrec (.quote (.var u)) tx (.lambda (.quote (.var v)) (.binary b (.var u) (.var v)))
  | .quote x :: .quote y :: as => do
    let tx ← decompileSpine x []
    let ty ← decompileSpine y []
    decompileOnto (.binary b tx ty) as
  | x :: y :: as => do
    let u ← Fresh.name
    let v ← Fresh.name
    let tx ← decompileSpine x []
    let ty ← decompileSpine y []
    decompileOnto
      (.letrec (.quote (.var u)) tx (.letrec (.quote (.var v)) ty (.binary b (.var u) (.var v)))) as
  termination_by argsWeight as
  decreasing_by all_goals simp [weight]; try omega

/-- Applies `t` to the decompiled `as`. -/
def decompileOnto (t : Term) (as : List Term) : Fresh Term :=
  match as with
  | [] => return t
  | a :: as => do
    let ta ← decompileSpine a []
    decompileOnto (app t ta) as
  termination_by argsWeight as
  decreasing_by all_goals simp; try omega

end

theorem decompileSpine_app (x y : Term) (as : List Term) :
    decompileSpine (.app x y) as = decompileSpine x (y :: as) := by rw [decompileSpine]

theorem decompileSpine_comp (x y : Term) (as : List Term) :
    decompileSpine (.comp x y) as = decompileSpine (.const .b) (x :: y :: as) := by rw [decompileSpine]

/-- Decompiles code, drawing names as needed; the result is not simplified. -/
def decompileWith (code : Term) : Fresh Term := decompileSpine code []

/-- Decompiles code with names that do not occur in it; the result is not simplified. -/
def decompileRaw (code : Term) : Except Error Term :=
  (code.decompileWith.runWith (.avoiding code.names)).1

/-- The simplified λ-term of combinator code. -/
def decompile (code : Term) : Except Error Term := do (← code.decompileRaw).simplify

end Term

end Combinatory
