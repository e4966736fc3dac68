import Combinatory.Decompile
import Combinatory.Proofs.HeadReduction
import Combinatory.Proofs.RuleMachine

/-!
# The steps of decompilation

Decompilation as a table of rules that a machine applies one after the other. It comes to an end on all code, after a
number of rules that is linear in the size of the code.

## The model

`Term.spinePlan` has a row for each head and each number of arguments. The rows are those of `Term.decompileSpine`,
with calls in place of its recursion: a row says what is asked for next, and nothing about how that is answered. Code
whose contraction goes on for ever is no exception, since no row copies anything but variables: `W` and `S` share
their argument by a `LETREC`.

## What is proved

* `obeys_decompileTask` — decompilation goes by the table, and the tasks that a row calls for weigh together less than
  its own task.
* `halts_decompileWith` — the machine halts on well-formed code with what decompilation gives.
-/

namespace Combinatory.Term

open Plan

/-! ### The table -/

/-- What a spine of `b`, as an operator, is made into. -/
def operatorPlan (b : Binary) : List Term → Plan Task Term Term
  | [] => do
    let x ← fresh
    let y ← fresh
    return .lambda (.var x) (.lambda (.var y) (.binary b (.var x) (.var y)))
  | [x] => do
    let tx ← ask (.spine x [])
    let y ← fresh
    return .lambda (.var y) (.binary b tx (.var y))
  | x :: y :: as => do
    let tx ← ask (.spine x [])
    let ty ← ask (.spine y [])
    ask (.onto (.binary b tx ty) as)

/-- What a spine of `b`, as a comparison of quoted operands, is made into. -/
def comparisonPlan (b : Binary) : List Term → Plan Task Term Term
  | [] => do
    let x ← fresh
    let y ← fresh
    return .lambda (.quote (.var x)) (.lambda (.quote (.var y)) (.binary b (.var x) (.var y)))
  | [.quote x] => do
    let y ← fresh
    let tx ← ask (.spine x [])
    return .lambda (.quote (.var y)) (.binary b tx (.var y))
  | [x] => do
    let u ← fresh
    let v ← fresh
    let tx ← ask (.spine x [])
    return .letrec (.quote (.var u)) tx (.lambda (.quote (.var v)) (.binary b (.var u) (.var v)))
  | .quote x :: .quote y :: as => do
    let tx ← ask (.spine x [])
    let ty ← ask (.spine y [])
    ask (.onto (.binary b tx ty) as)
  | x :: y :: as => do
    let u ← fresh
    let v ← fresh
    let tx ← ask (.spine x [])
    let ty ← ask (.spine y [])
    ask (.onto (.letrec (.quote (.var u)) tx (.letrec (.quote (.var v)) ty (.binary b (.var u) (.var v)))) as)

/-- What a spine is made into. -/
def spinePlan (h : Term) (as : List Term) : Plan Task Term Term :=
  match h, as with
  | .app x y, as => ask (.spine x (y :: as))
  | .comp x y, as => ask (.spine (.const .b) (x :: y :: as))
  | .var n, as => ask (.onto (.var n) as)
  | .const .hole, as => ask (.onto (.const .hole) as)
  | .const .top, _ => return .const .top
  | .const .bot, _ => return .const .bot
  | .const .i, [] => do
    let x ← fresh
    return .lambda (.var x) (.var x)
  | .const .i, x :: as => ask (.spine x as)
  | .const .k, [] => do
    let x ← fresh
    let y ← fresh
    return .lambda (.var x) (.lambda (.var y) (.var x))
  | .const .k, [x] => do
    let y ← fresh
    let tx ← ask (.spine x [])
    return .lambda (.var y) tx
  | .const .k, x :: _ :: as => ask (.spine x as)
  | .const .b, [] => do
    let x ← fresh
    let y ← fresh
    let z ← fresh
    return .lambda (.var x) (.lambda (.var y) (.lambda (.var z) (app (.var x) (app (.var y) (.var z)))))
  | .const .b, [x] => do
    let y ← fresh
    let z ← fresh
    let t ← ask (.spine x [app (.var y) (.var z)])
    return .lambda (.var y) (.lambda (.var z) t)
  | .const .b, [x, y] => do
    let z ← fresh
    let t ← ask (.spine x [app y (.var z)])
    return .lambda (.var z) t
  | .const .b, x :: y :: z :: as => ask (.spine x (app y z :: as))
  | .const .c, [] => do
    let x ← fresh
    let y ← fresh
    let z ← fresh
    return .lambda (.var x) (.lambda (.var y) (.lambda (.var z) (appAll (.var x) [.var z, .var y])))
  | .const .c, [x] => do
    let y ← fresh
    let z ← fresh
    let t ← ask (.spine x [.var z, .var y])
    return .lambda (.var y) (.lambda (.var z) t)
  | .const .c, [x, y] => do
    let z ← fresh
    let t ← ask (.spine x [.var z, y])
    return .lambda (.var z) t
  | .const .c, x :: y :: z :: as => ask (.spine x (z :: y :: as))
  | .const .w, [] => do
    let x ← fresh
    let y ← fresh
    return .lambda (.var x) (.lambda (.var y) (appAll (.var x) [.var y, .var y]))
  | .const .w, [x] => do
    let y ← fresh
    let tx ← ask (.spine x [])
    return .lambda (.var y) (appAll tx [.var y, .var y])
  | .const .w, x :: .var y :: as => do
    let t ← ask (.spine x [.var y, .var y])
    ask (.onto t as)
  | .const .w, x :: y :: as => do
    let v ← fresh
    let ty ← ask (.spine y [])
    let t ← ask (.spine x [.var v, .var v])
    ask (.onto (.letrec (.var v) ty t) as)
  | .const .s, [] => do
    let x ← fresh
    let y ← fresh
    let z ← fresh
    return .lambda (.var x) (.lambda (.var y) (.lambda (.var z)
      (appAll (.var x) [.var z, app (.var y) (.var z)])))
  | .const .s, [x] => do
    let y ← fresh
    let z ← fresh
    let tx ← ask (.spine x [])
    return .lambda (.var y) (.lambda (.var z) (appAll tx [.var z, app (.var y) (.var z)]))
  | .const .s, [x, y] => do
    let z ← fresh
    let tx ← ask (.spine x [])
    let ty ← ask (.spine y [])
    return .lambda (.var z) (appAll tx [.var z, app ty (.var z)])
  | .const .s, x :: y :: .var z :: as => do
    let t ← ask (.spine x [.var z, app y (.var z)])
    ask (.onto t as)
  | .const .s, x :: y :: z :: as => do
    let v ← fresh
    let tz ← ask (.spine z [])
    let t ← ask (.spine x [.var v, app y (.var v)])
    ask (.onto (.letrec (.var v) tz t) as)
  | .const .y, [] => do
    let x ← fresh
    let y ← fresh
    let z ← fresh
    return .lambda (.var x) (fixpoint (.var x) y z)
  | .const .y, x :: as => do
    let tx ← ask (.spine x [])
    let y ← fresh
    let z ← fresh
    ask (.onto (fixpoint tx y z) as)
  | .const .j, as => operatorPlan .join as
  | .const .r, as => operatorPlan .rand as
  | .const .qless, as => comparisonPlan .less as
  | .const .qnless, as => comparisonPlan .nless as
  | .const .qequal, as => comparisonPlan .equal as
  | .const .ci, as => ask (.spine reversedApplication as)
  | .const .cb, as => ask (.spine reversedComposition as)
  | .const .u, as => ask (.spine closure as)
  | .const .v, as => ask (.spine reflexiveClosure as)
  | .const .p, as => ask (.spine closureOfJoin as)
  | .const .a, _ => fail (.notImplemented (.undefinedConst .a))
  | .const .nil, as => fail (.unmatched "decompile_stack" (stackAll (.const .nil :: as) (.const .nil)))
  | .unary u x, as => do
    let tx ← ask (.spine x [])
    ask (.onto (.unary u tx) as)
  | .binary b x y, as => do
    let tx ← ask (.spine x [])
    let ty ← ask (.spine y [])
    ask (.onto (.binary b tx ty) as)
  | .lambda p e, as => do
    let tp ← ask (.spine p [])
    let te ← ask (.spine e [])
    ask (.onto (.lambda tp te) as)
  | .letrec p d e, as => do
    let tp ← ask (.spine p [])
    let td ← ask (.spine d [])
    let te ← ask (.spine e [])
    ask (.onto (.letrec tp td te) as)
  | .name n, as => fail (.unmatched "decompile_stack" (stackAll (.name n :: as) (.const .nil)))

/-- The table of decompilation. -/
def decompilePlan : Task → Plan Task Term Term
  | .spine h as => spinePlan h as
  | .onto t as => ontoPlan t as

/-! ### Decompilation goes by the table -/

/-- Decompiles what a task says. -/
def decompileTask : Task → Fresh Term
  | .spine h as => decompileSpine h as
  | .onto t as => decompileOnto t as

theorem eval_operatorPlan (b : Binary) (as : List Term) :
    (operatorPlan b as).eval decompileTask = decompileOperator b as := by
  unfold operatorPlan decompileOperator
  split <;> simp [decompileTask]

theorem eval_comparisonPlan (b : Binary) (as : List Term) :
    (comparisonPlan b as).eval decompileTask = decompileComparison b as := by
  unfold comparisonPlan decompileComparison
  split <;> simp [decompileTask]

theorem eval_spinePlan (h : Term) (as : List Term) :
    (spinePlan h as).eval decompileTask = decompileSpine h as := by
  unfold spinePlan
  rw [decompileSpine.eq_def]
  split <;> simp [decompileTask, eval_operatorPlan, eval_comparisonPlan]

theorem eval_ontoPlan (t : Term) (as : List Term) : (ontoPlan t as).eval decompileTask = decompileOnto t as := by
  unfold ontoPlan decompileOnto
  split <;> simp [decompileTask]

/-! ### What the rows call for -/

/-- The weight of a task. Twice the weight of code, so that a row can put arguments onto a term as one more task. -/
def taskWeight : Task → Nat
  | .spine h as => 2 * (h.weight + argsWeight as)
  | .onto _ as => 2 * argsWeight as + 1

theorem within_operatorPlan (b : Binary) (as : List Term) {bound : Nat} (hb : 2 * argsWeight as ≤ bound) :
    (operatorPlan b as).Within taskWeight bound := by
  refine Within.mono ?_ hb
  rcases as with _ | ⟨x, _ | ⟨y, as⟩⟩
  · simp [operatorPlan]
  · rw [operatorPlan, within_ask_bind]
    refine ⟨?_, by simp⟩
    simp only [taskWeight, argsWeight]
    omega
  · simp [operatorPlan, taskWeight]
    omega

theorem within_comparisonPlan (b : Binary) (as : List Term) {bound : Nat} (hb : 2 * argsWeight as ≤ bound) :
    (comparisonPlan b as).Within taskWeight bound := by
  refine Within.mono ?_ hb
  unfold comparisonPlan
  split <;> simp [taskWeight, weight] <;> omega

theorem within_spinePlan (h : Term) (as : List Term) :
    (spinePlan h as).Within taskWeight (2 * (h.weight + argsWeight as) - 1) := by
  unfold spinePlan
  -- The rows that share an argument are the tight ones: what they call for weighs just one less than their task.
  split <;> simp (disch := omega) [taskWeight, weight, Const.weight, Binary.weight, within_operatorPlan,
    within_comparisonPlan] <;> omega

theorem within_ontoPlan (t : Term) (as : List Term) : (ontoPlan t as).Within taskWeight (2 * argsWeight as) := by
  unfold ontoPlan
  split <;> simp [taskWeight]
  omega

theorem weight_pos (t : Term) : 0 < t.weight := by
  cases t with
  | const o => cases o <;> decide
  | _ => simp [weight]

/-- **Decompilation goes by the table**, and no row calls for more than its task weighs. -/
theorem obeys_decompileTask : Obeys decompileTask decompilePlan taskWeight where
  eval_eq := by
    intro i
    cases i with
    | spine h as => exact (eval_spinePlan h as).symm
    | onto t as => exact (eval_ontoPlan t as).symm
  within := by
    intro i
    cases i with
    | spine h as =>
      have := weight_pos h
      exact ⟨_, by simp only [taskWeight]; omega, within_spinePlan h as⟩
    | onto t as => exact ⟨_, Nat.lt_succ_self _, within_ontoPlan t as⟩

/-! ### Decompilation ends -/

/-- The weight of well-formed code is linear in its size. The heaviest node is `P`. -/
theorem weight_le_size {t : Term} (ht : t.WellFormed) : t.weight ≤ 93 * t.size := by
  induction t with
  | name n => exact ht.elim
  | var n => simp [weight, size]
  | const o => cases o <;> decide
  | unary u x ih =>
    have := ih ht
    simp only [weight, size]
    omega
  | binary b x y ihx ihy =>
    have := ihx ht.1
    have := ihy ht.2
    have : b.weight ≤ 7 := by cases b <;> decide
    simp only [weight, size]
    omega
  | lambda p e ihp ihe =>
    have := ihp ht.1
    have := ihe ht.2
    simp only [weight, size]
    omega
  | letrec p d e ihp ihd ihe =>
    have := ihp ht.1
    have := ihd ht.2.1
    have := ihe ht.2.2
    simp only [weight, size]
    omega

/-- **Decompilation ends on all code**: from every supply of names, the machine that applies the rows of the table
halts with the result or the error that decompilation gives, after a number of rows that is linear in the size. -/
theorem halts_decompileWith {code : Term} (hc : code.WellFormed) (s : NameSupply) :
    Machine.Halts decompilePlan (.spine code []) s (186 * code.size) (code.decompileWith.runWith s) := by
  obtain ⟨n, hn, hr⟩ := obeys_decompileTask.halts (.spine code []) s
  have hw := weight_le_size hc
  refine ⟨n, ?_, hr⟩
  simp only [taskWeight, argsWeight] at hn
  omega

/-- `W W W` contracts to itself, and is decompiled all the same. -/
theorem halts_decompileWith_loop :
    CombinatorLaw (appAll (.const .w) [.const .w, .const .w]) (appAll (.const .w) [.const .w, .const .w]) ∧
      (appAll (.const .w) [.const .w, .const .w]).WellFormed ∧
      Machine.Halts decompilePlan (.spine (appAll (.const .w) [.const .w, .const .w]) []) (.avoiding []) 930
        ((appAll (.const .w) [.const .w, .const .w]).decompileWith.runWith (.avoiding [])) :=
  ⟨.w (.const .w) (.const .w), by simp [WellFormed], halts_decompileWith (by simp [WellFormed]) _⟩

end Combinatory.Term
