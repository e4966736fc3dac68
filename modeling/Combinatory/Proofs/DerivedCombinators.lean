import Combinatory.Proofs.DecompilationRules
import Combinatory.Proofs.DecompilationSteps

/-!
# Derived combinators

A derived combinator is an abbreviation: it makes no difference to decompilation whether it is written out before. The
decompiled term is the same, and so are the names that have been drawn. Decompilation writes an abbreviation out only
when it comes to the head of a spine; until then it is passed on as an argument, dropped, or shared by a definition.

## The model

`Term.unabbreviate` writes all abbreviations out. `Task.Unabbreviated` relates the tasks of the two decompilations,
which differ in the code that is left and in nothing else.

## What is proved

* `alike_spinePlan`: the rows for code and for what it abbreviates do the same, unless an abbreviation is at the head.
  The table looks at the arguments for variables and quotations only, which abbreviations do not stand for.
* `decompileWith_unabbreviate`: the two decompilations succeed alike. Where an abbreviation is at the head, there is
  one more step to write it out.
-/

namespace Combinatory

open Plan

/-! ### Abbreviations -/

/-- The term that a constant abbreviates, if it is a derived combinator. -/
def Const.abbreviates? (o : Const) : Option Term :=
  match o.definition with
  | .ok d => d
  | .error _ => none

namespace Term

/-- The term with all derived combinators written out. -/
def unabbreviate : Term → Term
  | .name n => .name n
  | .const o => o.abbreviates?.getD (.const o)
  | .var n => .var n
  | .unary u x => .unary u x.unabbreviate
  | .binary b x y => .binary b x.unabbreviate y.unabbreviate
  | .lambda p e => .lambda p.unabbreviate e.unabbreviate
  | .letrec p d e => .letrec p.unabbreviate d.unabbreviate e.unabbreviate

/-- Definitions are written with primitive combinators. -/
theorem unabbreviate_of_abbreviates {o : Const} {d : Term} (h : o.abbreviates? = some d) : d.unabbreviate = d := by
  cases o <;> cases h <;> rfl

theorem unabbreviate_const (o : Const) :
    (Term.const o).unabbreviate = .const o ∨ ∃ b x y, (Term.const o).unabbreviate = .binary b x y := by
  cases o <;> first | exact .inl rfl | exact .inr ⟨_, _, _, rfl⟩

@[simp] theorem unabbreviate_eq_var {t : Term} {n : String} : t.unabbreviate = .var n ↔ t = .var n := by
  cases t with
  | const o => rcases unabbreviate_const o with h | ⟨b, x, y, h⟩ <;> simp [h]
  | _ => simp [unabbreviate]

@[simp] theorem unabbreviate_eq_quote {t x : Term} :
    t.unabbreviate = .quote x ↔ ∃ y, t = .quote y ∧ x = y.unabbreviate := by
  cases t with
  | const o => rcases unabbreviate_const o with h | ⟨b, y, z, h⟩ <;> simp [h]
  | unary u y =>
    simp only [unabbreviate, Term.unary.injEq]
    grind
  | _ => simp [unabbreviate]

/-- No abbreviation is left. -/
theorem abbreviates_of_mem_heads {c : Term} {o : Const} (h : .const o ∈ c.unabbreviate.heads) :
    o.abbreviates? = none := by
  induction c with
  | name _ | var _ => simp [unabbreviate, heads] at h
  | const o' =>
    revert h
    cases o' <;> cases o <;> decide
  | unary _ x ih => exact ih (by simpa [unabbreviate, heads] using h)
  | binary _ x y ihx ihy | lambda x y ihx ihy =>
    simp only [unabbreviate, heads, List.mem_cons, reduceCtorEq, List.mem_append, false_or] at h
    exact h.elim ihx ihy
  | letrec p d e ihp ihd ihe =>
    simp only [unabbreviate, heads, List.mem_cons, reduceCtorEq, List.mem_append, false_or] at h
    exact h.elim ihp fun h => h.elim ihd ihe

/-! ### The rows -/

/-- The second task is the first one with the abbreviations in its code written out. -/
def Task.Unabbreviated : Task → Task → Prop
  | .spine h as, .spine k bs => k = h.unabbreviate ∧ bs = as.map unabbreviate
  | .onto t as, .onto u bs => u = t ∧ bs = as.map unabbreviate
  | _, _ => False

theorem alike_operatorPlan (b : Binary) (as : List Term) :
    (operatorPlan b as).Alike Task.Unabbreviated (operatorPlan b (as.map unabbreviate)) := by
  fun_cases operatorPlan b as <;> simp [operatorPlan, Task.Unabbreviated]

theorem alike_comparisonPlan (b : Binary) (as : List Term) :
    (comparisonPlan b as).Alike Task.Unabbreviated (comparisonPlan b (as.map unabbreviate)) := by
  fun_cases comparisonPlan b as <;> simp_all [comparisonPlan, Task.Unabbreviated, unabbreviate]

theorem alike_spinePlan {h : Term} (hh : ∀ o, h = .const o → o.abbreviates? = none) (as : List Term) :
    (spinePlan h as).Alike Task.Unabbreviated (spinePlan h.unabbreviate (as.map unabbreviate)) := by
  -- the guards of the rows carry over by `unabbreviate_eq_var` and `unabbreviate_eq_quote`
  fun_cases spinePlan h as <;>
    simp_all [spinePlan, Task.Unabbreviated, unabbreviate, Const.abbreviates?, Const.definition, alike_operatorPlan,
      alike_comparisonPlan]

/-- An abbreviation at the head is written out. -/
theorem spinePlan_of_abbreviates {o : Const} {d : Term} (h : o.abbreviates? = some d) (as : List Term) :
    spinePlan (.const o) as = ask (.spine d as) := by
  cases o <;> cases h <;> rfl

theorem alike_ontoPlan (t : Term) (as : List Term) :
    (ontoPlan t as).Alike Task.Unabbreviated (ontoPlan t (as.map unabbreviate)) := by
  cases as with
  | nil => exact rfl
  | cons a as => simp [ontoPlan, Task.Unabbreviated]

/-- The rows for related tasks do the same, unless the first one only writes an abbreviation out. -/
theorem alike_decompilePlan {i j : Task} (h : i.Unabbreviated j) :
    (decompilePlan i).Alike Task.Unabbreviated (decompilePlan j) ∨
      ∃ k, decompilePlan i = ask k ∧ k.Unabbreviated j := by
  cases i with
  | onto t as =>
    cases j with
    | onto u bs =>
      obtain ⟨rfl, rfl⟩ := h
      exact .inl (alike_ontoPlan u as)
    | spine => exact h.elim
  | spine h₀ as =>
    cases j with
    | spine k bs =>
      obtain ⟨rfl, rfl⟩ := h
      by_cases hh : ∀ o, h₀ = .const o → o.abbreviates? = none
      · exact .inl (alike_spinePlan hh as)
      · push Not at hh
        obtain ⟨o, rfl, ho⟩ := hh
        obtain ⟨d, hd⟩ := Option.ne_none_iff_exists'.1 ho
        refine .inr ⟨.spine d as, spinePlan_of_abbreviates hd as, ?_, rfl⟩
        rw [unabbreviate_of_abbreviates hd, unabbreviate, hd, Option.getD_some]
    | onto => exact h.elim

/-! ### Decompilation -/

/-- **Derived combinators are transparent**: code is decompiled if and only if it is with all of them written out, to
the same term and with the same names, from any supply. -/
theorem decompileWith_unabbreviate (c : Term) :
    (∀ s t s', c.decompileWith.runWith s = (.ok t, s') ↔ c.unabbreviate.decompileWith.runWith s = (.ok t, s')) ∧
      ∀ o d, o.definition = .ok (some d) → .const o ∉ c.unabbreviate.heads := by
  have hroot : (Task.spine c []).Unabbreviated (.spine c.unabbreviate []) := ⟨rfl, rfl⟩
  refine ⟨obeys_decompileTask.agrees (fun _ _ => alike_decompilePlan) hroot, ?_⟩
  intro o d ho hmem
  have hnone := abbreviates_of_mem_heads hmem
  rw [Const.abbreviates?, ho] at hnone
  cases hnone

end Term

end Combinatory
