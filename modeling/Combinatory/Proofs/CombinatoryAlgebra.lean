import Combinatory.Proofs.Compilation
import Combinatory.Proofs.Exposure

/-!
# Combinatory algebras

Abstraction of a variable in every model of the combinators: applied to a value of the variable, the abstraction has
the value of the term. Compositions with the variable on both sides are left out, as for compilation.

## The model

An `Interpretation` has a value for each constant, and a function on values for each other head. `Term.eval` is the
value of a term, given values of its variables. A `CombinatoryAlgebra` is an interpretation with the laws that the
table of abstraction needs: what `I`, `W`, `S` and `C` do with their operands, what composition is and which combinators
stand for it, and that joins and random choices are symmetric and are applied side by side. Nothing is asked of the
other heads. `CombinatoryAlgebra.graph` is the graph model with joins of values, so there are algebras with many values.

## What is proved

* `Abstracts.eval`: each row of the table of abstraction is an instance of the laws.
* `eval_bracket`: in every algebra, the abstraction of an unshared variable from code is the function that the code is
  of the variable.
-/

universe w

namespace Combinatory

/-! ### Interpretations -/

/-- Values, with a meaning for each head. -/
structure Interpretation where
  /-- The values. -/
  Carrier : Type w
  /-- The values of the constants. -/
  const : Const → Carrier
  /-- What heads with one child do. -/
  unary : Unary → Carrier → Carrier
  /-- What heads with two children do. -/
  binary : Binary → Carrier → Carrier → Carrier
  /-- What `LAMBDA` does with the values of its parts. -/
  lambda : Carrier → Carrier → Carrier
  /-- What `LETREC` does with the values of its parts. -/
  letrec : Carrier → Carrier → Carrier → Carrier

namespace Interpretation

variable (A : Interpretation.{w})

/-- Application of values. -/
abbrev app : A.Carrier → A.Carrier → A.Carrier := A.binary .app

/-- Composition of values. -/
abbrev comp : A.Carrier → A.Carrier → A.Carrier := A.binary .comp

/-- Join of values. -/
abbrev join : A.Carrier → A.Carrier → A.Carrier := A.binary .join

/-- Random choice between values. -/
abbrev rand : A.Carrier → A.Carrier → A.Carrier := A.binary .rand

/-- The laws of the combinators that abstraction puts in. -/
structure Laws : Prop where
  i (x : A.Carrier) : A.app (A.const .i) x = x
  w (x y : A.Carrier) : A.app (A.app (A.const .w) x) y = A.app (A.app x y) y
  s (x y z : A.Carrier) : A.app (A.app (A.app (A.const .s) x) y) z = A.app (A.app x z) (A.app y z)
  c (x y z : A.Carrier) : A.app (A.app (A.app (A.const .c) x) y) z = A.app (A.app x z) y
  comp (x y z : A.Carrier) : A.app (A.comp x y) z = A.app x (A.app y z)
  b (x y : A.Carrier) : A.app (A.app (A.const .b) x) y = A.comp x y
  cb (x y : A.Carrier) : A.app (A.app (A.const .cb) y) x = A.comp x y
  j (x y : A.Carrier) : A.app (A.app (A.const .j) x) y = A.join x y
  r (x y : A.Carrier) : A.app (A.app (A.const .r) x) y = A.rand x y
  join_comm (x y : A.Carrier) : A.join x y = A.join y x
  rand_comm (x y : A.Carrier) : A.rand x y = A.rand y x
  join (x y z : A.Carrier) : A.app (A.join x y) z = A.join (A.app x z) (A.app y z)
  rand (x y z : A.Carrier) : A.app (A.rand x y) z = A.rand (A.app x z) (A.app y z)

end Interpretation

/-- An interpretation with the laws of the combinators. -/
structure CombinatoryAlgebra extends Interpretation.{w} where
  /-- The combinators do what they are there for. -/
  laws : toInterpretation.Laws

/-! ### The graph model -/

section

open Value

/-- The constants of the graph model, with `J` and `R` for joins of values. -/
def Const.graphMeaning : Const → Value
  | .j | .r => lam fun x => lam fun y => x ⊔ y
  | o => o.meaning fixpointValue

/-- What heads with two children do in the graph model. A random choice may be either of its sides. -/
def Binary.graphMeaning : Binary → Value → Value → Value
  | .app, x, y => Value.app x y
  | .comp, x, y => lam fun z => Value.app x (Value.app y z)
  | .join, x, y | .rand, x, y => x ⊔ y
  | _, _, _ => ⊥

/-- The graph model, where heads that have no meaning are not known about. -/
def Interpretation.graph : Interpretation where
  Carrier := Value
  const := Const.graphMeaning
  unary _ _ := ⊥
  binary := Binary.graphMeaning
  lambda _ _ := ⊥
  letrec _ _ _ := ⊥

theorem Interpretation.laws_graph : graph.Laws where
  i (x : Value) := app_lam finitary_id x
  w (x y : Value) := by
    show Value.app (Value.app (lam _) x) y = Value.app (Value.app x y) y
    simp (disch := fun_prop) only [app_lam]
  s (x y z : Value) := by
    show Value.app (Value.app (Value.app (lam _) x) y) z = Value.app (Value.app x z) (Value.app y z)
    simp (disch := fun_prop) only [app_lam]
  c (x y z : Value) := by
    show Value.app (Value.app (Value.app (lam _) x) y) z = Value.app (Value.app x z) y
    simp (disch := fun_prop) only [app_lam]
  comp (x y z : Value) := app_lam (by fun_prop) z
  b (x y : Value) := by
    show Value.app (Value.app (lam _) x) y = lam fun z => Value.app x (Value.app y z)
    simp (disch := fun_prop) only [app_lam]
  cb (x y : Value) := by
    show Value.app (Value.app (lam _) y) x = lam fun z => Value.app x (Value.app y z)
    simp (disch := fun_prop) only [app_lam]
  j (x y : Value) := by
    show Value.app (Value.app (lam _) x) y = x ⊔ y
    simp (disch := fun_prop) only [app_lam]
  r (x y : Value) := by
    show Value.app (Value.app (lam _) x) y = x ⊔ y
    simp (disch := fun_prop) only [app_lam]
  join_comm (x y : Value) := sup_comm x y
  rand_comm (x y : Value) := sup_comm x y
  join (x y z : Value) := sup_app x y z
  rand (x y z : Value) := sup_app x y z

/-- The graph model as an algebra. -/
def CombinatoryAlgebra.graph : CombinatoryAlgebra := ⟨.graph, Interpretation.laws_graph⟩

end

namespace Term

variable {A : Interpretation.{w}} {ρ σ : String → A.Carrier} {v : String} {t u : Term}

/-- The value of a term, given values of its names. -/
def eval (A : Interpretation.{w}) (ρ : String → A.Carrier) : Term → A.Carrier
  | .name n | .var n => ρ n
  | .const o => A.const o
  | .unary u x => A.unary u (x.eval A ρ)
  | .binary b x y => A.binary b (x.eval A ρ) (y.eval A ρ)
  | .lambda p e => A.lambda (p.eval A ρ) (e.eval A ρ)
  | .letrec p d e => A.letrec (p.eval A ρ) (d.eval A ρ) (e.eval A ρ)

/-- Only the names of the term matter. -/
theorem eval_congr (h : ∀ n ∈ t.payloads, ρ n = σ n) : t.eval A ρ = t.eval A σ := by
  induction t with
  | name n | var n => exact h n (List.mem_singleton_self n)
  | const o => rfl
  | unary u x ih => rw [eval, eval, ih h]
  | binary b x y ihx ihy =>
    rw [payloads, List.forall_mem_append] at h
    rw [eval, eval, ihx h.1, ihy h.2]
  | lambda p e ihp ihe =>
    rw [payloads, List.forall_mem_append] at h
    rw [eval, eval, ihp h.1, ihe h.2]
  | letrec p d e ihp ihd ihe =>
    rw [payloads, List.forall_mem_append, List.forall_mem_append] at h
    rw [eval, eval, ihp h.1.1, ihd h.1.2, ihe h.2]

theorem eval_update_of_not_mem (h : v ∉ t.payloads) (a : A.Carrier) :
    t.eval A (Function.update ρ v a) = t.eval A ρ := by
  apply eval_congr
  intro n hn
  apply Function.update_of_ne
  rintro rfl
  exact h hn

/-! ### Abstraction -/

/-- **The rows of the table of abstraction** are instances of the laws. -/
theorem Abstracts.eval (h : Abstracts v t u) (hA : A.Laws) (hv : t.Unshared v) :
    A.app (u.eval A ρ) (ρ v) = t.eval A ρ := by
  induction h with
  | var => exact hA.i _
  | appEta _ => rfl
  | appRight _ _ _ ih =>
    show A.app (A.comp _ _) _ = A.app _ _
    rw [hA.comp, ih hv.2]
  | appLeft _ _ ih =>
    show A.app (A.app (A.app (A.const .c) _) _) _ = A.app _ _
    rw [hA.c, ih hv.1]
  | appTwice _ ih =>
    show A.app (A.app (A.const .w) _) _ = A.app _ _
    rw [hA.w, ih hv.1]
    rfl
  | appBoth _ _ _ ihx ihy =>
    show A.app (A.app (A.app (A.const .s) _) _) _ = A.app _ _
    rw [hA.s, ihx hv.1, ihy hv.2]
  | compEta _ => exact hA.b _ _
  | compRight _ _ _ ih =>
    show A.app (A.comp (A.app (A.const .b) _) _) _ = A.comp _ _
    rw [hA.comp, ih hv.2.2, hA.b]
  | compLeft _ _ ih =>
    show A.app (A.comp (A.app (A.const .cb) _) _) _ = A.comp _ _
    rw [hA.comp, ih hv.2.1, hA.cb]
  | compBoth hx hy => exact absurd hv (not_unshared_comp hx hy)
  | joinEta _ _ ih =>
    -- the right side has the value of the variable, whatever it is
    show A.app (A.app (A.const .j) _) _ = A.join _ _
    rw [hA.j, ← ih hv.2]
    congr 1
    exact (hA.i _).symm
  | joinRight _ _ _ ih =>
    show A.app (A.comp (A.app (A.const .j) _) _) _ = A.join _ _
    rw [hA.comp, ih hv.2, hA.j]
  | joinLeft _ _ ih =>
    show A.app (A.comp (A.app (A.const .j) _) _) _ = A.join _ _
    rw [hA.comp, ih hv.1, hA.j, hA.join_comm]
  | joinBoth _ _ ihx ihy =>
    show A.app (A.join _ _) _ = A.join _ _
    rw [hA.join, ihx hv.1, ihy hv.2]
  | randRight _ _ ih =>
    show A.app (A.comp (A.app (A.const .r) _) _) _ = A.rand _ _
    rw [hA.comp, ih hv.2, hA.r]
  | randLeft _ _ ih =>
    show A.app (A.comp (A.app (A.const .r) _) _) _ = A.rand _ _
    rw [hA.comp, ih hv.1, hA.r, hA.rand_comm]
  | randBoth _ _ ihx ihy =>
    show A.app (A.rand _ _) _ = A.rand _ _
    rw [hA.rand, ihx hv.1, ihy hv.2]

/-- **Abstraction is correct in every algebra**: where no composition has the variable on both sides, the abstraction
of the variable from code, applied to the variable, has the value of the code. As the variable is gone from the
abstraction, it is the function that the code is of the variable. -/
theorem eval_bracket (A : CombinatoryAlgebra.{w}) (hw : t.WellFormed) (hb : t.BinderFree) (hv : t.Unshared v)
    (h : t.bracket v = .ok (some u)) (ρ : String → A.Carrier) :
    A.app (u.eval A.toInterpretation ρ) (ρ v) = t.eval A.toInterpretation ρ ∧
      ∀ a, A.app (u.eval A.toInterpretation ρ) a = t.eval A.toInterpretation (Function.update ρ v a) := by
  have hu : Abstracts v t u := bracket_eq_ok_iff.1 h
  refine ⟨hu.eval A.laws hv, ?_⟩
  intro a
  have ha := hu.eval (ρ := Function.update ρ v a) A.laws hv
  rwa [eval_update_of_not_mem (hu.not_mem_payloads hw hb), Function.update_self] at ha

/-- `RAND (COMP f v) (JOIN (v x) y)` in the graph model, when `f` is observed and `v` is the identity. -/
theorem eval_bracket_graph :
    ∃ u, (rand (comp (.var "f") (.var "v")) (join (app (.var "v") (.var "x")) (.var "y"))).bracket "v" = .ok (some u) ∧
      Value.app (u.eval .graph (observing "f")) (Value.lam fun x => x) =
        (rand (comp (.var "f") (.var "v")) (join (app (.var "v") (.var "x")) (.var "y"))).eval .graph
          (Function.update (observing "f") "v" (Value.lam fun x => x)) := by
  refine ⟨_, rfl, ?_⟩
  refine (eval_bracket .graph ?_ ?_ ?_ rfl (observing "f")).2 (Value.lam fun x => x)
  · simp [WellFormed]
  · simp [BinderFree]
  · simp [Unshared, freeOccurrences]

end Term

end Combinatory
