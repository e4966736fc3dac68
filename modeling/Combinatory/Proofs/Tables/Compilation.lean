import Combinatory.Proofs.NormalForm
import Combinatory.Proofs.Tables.Evaluation

/-!
# The tables of compilation

Bracket abstraction and compilation by tables come to what `Term.bracket` and `Term.compile` give.

## What is proved

* `exec_bracketHere` — abstraction ends without a fault, and the variable in the context is the same at the end. An
  application to a variable has a rule of its own, which comes to the same as the rule for other applications would.
* `exec_compile` — compilation ends without a fault.
-/

namespace Combinatory.Tables

variable {v : String} {x y : Term}

theorem exec_bracketHere_eq (t : Term) : (bracketHere t).exec answer = evaluate "try_abstract" bracketRules t :=
  exec_apply .bracket t

theorem exec_compile_eq (t : Term) : Attempt.exec answer (compile t) = (evaluate "compile" compileRules t).run' () :=
  exec_apply_inContext .compile t ()

/-! ### Abstraction -/

theorem exec_unsupported (t : Term) (v : String) :
    ((unsupported [("term", t)]).exec answer).run v = (·, v) <$> Run.ofOutcome (t.bracketOther v) := by
  by_cases ht : t.count v = 0
  · simp [unsupported, Term.bracketOther, ht]
  · simp [unsupported, Term.bracketOther, ht]

section Sides

variable (hx : ((bracketHere x).exec answer).run v = (·, v) <$> Run.ofOutcome (x.bracket v))
include hx

theorem exec_bracketSides (hy : ((bracketHere y).exec answer).run v = (·, v) <$> Run.ofOutcome (y.bracket v))
    (combine : String → Term → Term → Option Term → Option Term → Option Term) :
    ((bracketSides combine [("x", x), ("y", y)]).exec answer).run v =
      (·, v) <$> Run.ofOutcome (do return combine v x y (← x.bracket v) (← y.bracket v)) := by
  simp [bracketSides, hx, hy]

theorem exec_bracketToVar (n : String) : ((bracketToVar [("x", x), ("v", .var n)]).exec answer).run v =
    (·, v) <$> Run.ofOutcome ((Term.app x (.var n)).bracket v) := by
  have hnamed : (Term.var n).isVarNamed v = (n == v) := rfl
  rcases hb : x.bracket v with e | _ | tx <;> cases hn : n == v
  all_goals simp_all [bracketToVar, Term.bracket, Term.bracketApp]

end Sides

/-- A variable is drawn out of a term side by side, and stays in the context. -/
theorem exec_bracketHere (t : Term) (v : String) :
    ((bracketHere t).exec answer).run v = (·, v) <$> Run.ofOutcome (t.bracket v) := by
  induction t with
  | var n =>
    rw [exec_bracketHere_eq]
    by_cases hn : n = v
    · simp [bracketRules, Term.bracket, hn]
    · simp [bracketRules, Term.bracket, hn]
  | binary o x y hx hy =>
    rw [exec_bracketHere_eq]
    cases o with
    | app =>
      cases hv : y.isVar with
      | true =>
        obtain ⟨n, rfl⟩ := Term.isVar_eq_true_iff.1 hv
        simpa [bracketRules, hv] using exec_bracketToVar hx n
      | false => simp [bracketRules, hv, exec_bracketSides hx hy, Term.bracket]
    | comp | join | rand => simp [bracketRules, exec_bracketSides hx hy, Term.bracket]
    | define | stack | less | nless | equal => simp [bracketRules, exec_unsupported, Term.bracket]
  | unary u x =>
    rw [exec_bracketHere_eq]
    cases u <;> simp [bracketRules, exec_unsupported, Term.bracket]
  | name n | const o | lambda p e | letrec p d e =>
    rw [exec_bracketHere_eq]
    simp [bracketRules, exec_unsupported, Term.bracket]

@[simp] theorem exec_bracket (v : String) (t : Term) :
    Attempt.exec answer (bracket v t) = Run.ofOutcome (t.bracket v) := by
  simp [bracket, exec_bracketHere]

/-! ### Compilation -/

@[simp] theorem exec_compileLambda (v : String) (e : Term) :
    Attempt.exec answer (compileLambda v e) = Run.ofOutcome (e.compileLambda v) := by
  rcases h : e.bracket v with _ | _ | t
  all_goals simp [compileLambda, Term.compileLambda, h]

@[simp] theorem exec_compileLetrec (v : String) (d e : Term) :
    Attempt.exec answer (compileLetrec v d e) = Run.ofOutcome (Term.compileLetrec v d e) := by
  rcases he : e.bracket v with _ | _ | te
  · simp [compileLetrec, Term.compileLetrec, he]
  · simp [compileLetrec, Term.compileLetrec, he]
  · rcases hd : d.bracket v with _ | _ | td
    all_goals simp [compileLetrec, Term.compileLetrec, he, hd]

@[simp] theorem exec_compile (t : Term) : Attempt.exec answer (compile t) = Run.ofOutcome t.compile := by
  induction t with
  | name n | const o | var n =>
    rw [exec_compile_eq]
    simp [compileRules, Term.compile, Term.isVar, Term.varName?]
  | unary u x ih =>
    rw [exec_compile_eq]
    simp [compileRules, Term.compile, Term.isVar, Term.varName?, ih]
  | binary o x y ihx ihy =>
    rw [exec_compile_eq]
    simp [compileRules, Term.compile, Term.isVar, Term.varName?, ihx, ihy]
  | lambda p e _ ihe =>
    rw [exec_compile_eq]
    cases hp : p.isVar with
    | true =>
      obtain ⟨v, rfl⟩ := Term.isVar_eq_true_iff.1 hp
      simp [compileRules, Term.compile, Term.isVar, Term.varName?, ihe]
    | false =>
      have hne := Term.isVar_eq_false_iff.1 hp
      simp [compileRules, Term.compile, Term.isVar, Term.varName?, hne,
        bind_node_var_of_isVar_eq_false hp]
  | letrec p d e _ ihd ihe =>
    rw [exec_compile_eq]
    cases hp : p.isVar with
    | true =>
      obtain ⟨v, rfl⟩ := Term.isVar_eq_true_iff.1 hp
      simp [compileRules, Term.compile, Term.isVar, Term.varName?, ihd, ihe]
    | false =>
      have hne := Term.isVar_eq_false_iff.1 hp
      simp [compileRules, Term.compile, Term.isVar, Term.varName?, hne,
        bind_node_var_of_isVar_eq_false hp]

end Combinatory.Tables
