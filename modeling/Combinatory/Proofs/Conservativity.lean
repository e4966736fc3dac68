import Combinatory.Proofs.Equations
import Combinatory.Proofs.Decompilation

/-!
# The equations of combinators are conservative

Two λ-terms that are equal by the laws of combinators are convertible without them: combinators are λ-terms, so an
equation between λ-terms that is derived with combinators can be derived with what they stand for.

## The proof

`Term.expand` replaces each constant that has laws by a closed λ-term, and a composition by an application of `B`. It
commutes with substitution, since it puts in nothing that has free variables. `TOP` and `BOT` become a fixed point of
`K`: the laws say no more of them than that they absorb an argument. Each law is then a conversion, so a derivation is
translated step by step (`Congruence.expand`), and a λ-term is not changed (`LambdaTerm.expand_eq`).

## What is proved

* `Congruence.of_lambdaTerm`: λ-terms that are equal by the equations are convertible.
-/

namespace Combinatory

open Nameless

/-! ### λ-terms for combinators -/

/-- `F F`, where `F` is `LAMBDA x. LAMBDA y. x x`: a fixed point of `K`. -/
def Term.absorber : Term :=
  app (.lambda (.var "x") (.lambda (.var "y") (app (.var "x") (.var "x"))))
    (.lambda (.var "x") (.lambda (.var "y") (app (.var "x") (.var "x"))))

namespace Const

open Term

/-- The λ-term of a primitive combinator. Constants without laws stay. -/
def primitive : Const → Term
  | .i => .lambda (.var "x") (.var "x")
  | .k => .lambda (.var "x") (.lambda (.var "y") (.var "x"))
  | .w => .lambda (.var "x") (.lambda (.var "y") (appAll (.var "x") [.var "y", .var "y"]))
  | .j => .lambda (.var "x") (.lambda (.var "y") (join (.var "x") (.var "y")))
  | .r => .lambda (.var "x") (.lambda (.var "y") (rand (.var "x") (.var "y")))
  | .b => .lambda (.var "x") (.lambda (.var "y") (.lambda (.var "z") (app (.var "x") (app (.var "y") (.var "z")))))
  | .c => .lambda (.var "x") (.lambda (.var "y") (.lambda (.var "z") (appAll (.var "x") [.var "z", .var "y"])))
  | .s => .lambda (.var "x") (.lambda (.var "y") (.lambda (.var "z")
      (appAll (.var "x") [.var "z", app (.var "y") (.var "z")])))
  | .y => .lambda (.var "x") (fixpoint (.var "x") "y" "z")
  | .top | .bot => absorber
  | o => .const o

end Const

namespace Term

/-- Replaces the constants, and compositions by applications of `B`. -/
def expandWith (f : Const → Term) : Term → Term
  | .name n => .name n
  | .const o => f o
  | .var n => .var n
  | .unary u x => .unary u (x.expandWith f)
  | .comp x y => appAll (f .b) [x.expandWith f, y.expandWith f]
  | .binary b x y => .binary b (x.expandWith f) (y.expandWith f)
  | .lambda p e => .lambda p (e.expandWith f)
  | .letrec p d e => .letrec p (d.expandWith f) (e.expandWith f)

theorem expandWith_comp (f : Const → Term) (x y : Term) :
    (comp x y).expandWith f = appAll (f .b) [x.expandWith f, y.expandWith f] := rfl

theorem expandWith_binary {b : Binary} (hb : b ≠ .comp) (f : Const → Term) (x y : Term) :
    (Term.binary b x y).expandWith f = .binary b (x.expandWith f) (y.expandWith f) := by
  cases b with
  | comp => exact absurd rfl hb
  | app | join | rand | define | stack | less | nless | equal => rfl

end Term

/-- The λ-term of a combinator. -/
def Const.expansion (o : Const) : Term :=
  match o.definition with
  | .ok (some d) => d.expandWith primitive
  | _ => o.primitive

theorem Const.freeOccurrences_expansion (o : Const) : o.expansion.freeOccurrences = [] := by
  cases o <;> decide

namespace Nameless

/-- Replaces the constants of a form by the forms of their λ-terms. -/
def expand : Nameless → Nameless
  | .name n => .name n
  | .const o => o.expansion.nameless []
  | .free n => .free n
  | .bound i => .bound i
  | .unary u x => .unary u x.expand
  | .binary .comp x y => .binary .app (.binary .app (Const.expansion .b |>.nameless []) x.expand) y.expand
  | .binary b x y => .binary b x.expand y.expand
  | .lambda k p e => .lambda k p e.expand
  | .letrec k p d e => .letrec k p d.expand e.expand

theorem expand_comp (x y : Nameless) : (binary .comp x y).expand =
    .binary .app (.binary .app (Const.expansion .b |>.nameless []) x.expand) y.expand := rfl

theorem expand_binary {b : Binary} (hb : b ≠ .comp) (x y : Nameless) :
    (binary b x y).expand = .binary b x.expand y.expand := by
  cases b with
  | comp => exact absurd rfl hb
  | app | join | rand | define | stack | less | nless | equal => rfl

theorem frees_expansion (o : Const) : (o.expansion.nameless []).frees = [] := by
  rw [List.eq_nil_iff_forall_not_mem]
  intro n hn
  rw [Term.mem_frees_nameless_nil, o.freeOccurrences_expansion] at hn
  cases hn

theorem substAll_expansion (o : Const) (σ : String → Nameless) :
    (o.expansion.nameless []).substAll σ = o.expansion.nameless [] := by
  rw [substAll_congr (τ := free), substAll_free]
  intro n hn
  rw [frees_expansion] at hn
  cases hn

theorem expand_substAll (σ : String → Nameless) (s : Nameless) :
    (s.substAll σ).expand = s.expand.substAll fun n => (σ n).expand := by
  induction s with
  | name _ | free _ | bound _ => rfl
  | const o => exact (substAll_expansion o _).symm
  | unary u x ih => exact congrArg (unary u) ih
  | binary b x y ihx ihy =>
    by_cases hb : b = .comp
    · subst hb
      simp only [substAll, expand_comp, ihx, ihy, substAll_expansion]
    · simp only [substAll, expand_binary hb, ihx, ihy]
  | lambda k p e _ ihe => exact congrArg (lambda k p) ihe
  | letrec k p d e _ ihd ihe => exact congrArg₂ (letrec k p) ihd ihe

theorem expand_subst (s : Nameless) (n : String) (a : Nameless) :
    (s.subst n a).expand = s.expand.subst n a.expand := by
  rw [subst, expand_substAll, subst]
  congr 1
  funext m
  by_cases hm : m = n
  · subst hm
    rw [Function.update_self, Function.update_self]
  · rw [Function.update_of_ne hm, Function.update_of_ne hm]
    rfl

theorem frees_expand (s : Nameless) : s.expand.frees = s.frees := by
  induction s with
  | name _ | free _ | bound _ => rfl
  | const o => exact frees_expansion o
  | unary u x ih => exact ih
  | binary b x y ihx ihy =>
    by_cases hb : b = .comp
    · subst hb
      simp only [expand_comp, frees, frees_expansion, List.nil_append, ihx, ihy]
    · simp only [expand_binary hb, frees, ihx, ihy]
  | lambda k p e _ ihe => exact ihe
  | letrec k p d e _ ihd ihe => exact congrArg₂ (· ++ ·) ihd ihe

end Nameless

namespace Term

/-- Replaces the combinators by λ-terms. -/
def expand (t : Term) : Term := t.expandWith Const.expansion

theorem nameless_expand (t : Term) (Γ : List String) : t.expand.nameless Γ = (t.nameless Γ).expand := by
  have closed (o : Const) (Γ : List String) : o.expansion.nameless Γ = o.expansion.nameless [] := by
    apply nameless_eq_nil
    rw [o.freeOccurrences_expansion]
    exact List.forall_mem_nil _
  unfold expand
  induction t generalizing Γ with
  | name _ => rfl
  | const o => exact closed o Γ
  | var n =>
    show resolve Γ n = (resolve Γ n).expand
    unfold resolve
    split <;> rfl
  | unary u x ih => exact congrArg (Nameless.unary u) (ih Γ)
  | binary b x y ihx ihy =>
    by_cases hb : b = .comp
    · subst hb
      simp only [expandWith_comp, appAll_cons, appAll_nil, nameless, Nameless.expand_comp, ihx, ihy, closed]
    · simp only [expandWith_binary hb, nameless, Nameless.expand_binary hb, ihx, ihy]
  | lambda p e _ ihe => exact congrArg (Nameless.lambda _ _) (ihe _)
  | letrec p d e _ ihd ihe => exact congrArg₂ (Nameless.letrec _ _) (ihd _) (ihe _)

theorem AlphaEq.expand {t u : Term} (h : AlphaEq t u) : AlphaEq t.expand u.expand := by
  unfold AlphaEq at h ⊢
  rw [nameless_expand, nameless_expand, h]

theorem mem_freeOccurrences_expand {t : Term} {n : String} : n ∈ t.expand.freeOccurrences ↔ n ∈ t.freeOccurrences := by
  rw [← mem_frees_nameless_nil, nameless_expand, Nameless.frees_expand, mem_frees_nameless_nil]

theorem LambdaTerm.expand_eq {t : Term} (h : t.LambdaTerm) : t.expand = t := by
  unfold expand
  induction h using LambdaTerm.induction with
  | var n => rfl
  | app _ _ ihx ihy => exact congrArg₂ app ihx ihy
  | lambda n _ ihe => exact congrArg (lambda (.var n)) ihe
  | letrec n _ _ ihd ihe => exact congrArg₂ (letrec (.var n)) ihd ihe

/-! ### Laws as conversions -/

section

variable {x y z : Term}

/-- A function of two variables that is made of them without binders. -/
theorem congruence_two {e : Term → Term → Term} {E : Nameless → Nameless → Nameless}
    (he : ∀ Γ x y, (e x y).nameless Γ = E (x.nameless Γ) (y.nameless Γ))
    (hE : ∀ σ r s, (E r s).substAll σ = E (r.substAll σ) (s.substAll σ)) (x y : Term) :
    Congruence LambdaLaw (appAll (.lambda (.var "x") (.lambda (.var "y") (e (.var "x") (.var "y")))) [x, y])
      (e x y) := by
  obtain ⟨n, hn⟩ := NameSupply.exists_not_mem x.freeOccurrences
  have hx : x.nameless [n] = x.nameless [] := nameless_eq_nil (by rintro m hm h; simp_all)
  have hxy : resolve ["y"] "x" = .free "x" := resolve_of_not_mem (by decide)
  have h₁ : LambdaLaw (app (.lambda (.var "x") (.lambda (.var "y") (e (.var "x") (.var "y")))) x)
      (.lambda (.var n) (e x (.var n))) := by
    apply LambdaLaw.beta
    simp only [nameless_lambda_var, nameless_var, he, hE, subst, substAll, resolve_cons_self, hx, hxy,
      Function.update_self]
  have h₂ : LambdaLaw (app (.lambda (.var n) (e x (.var n))) y) (e x y) := by
    apply LambdaLaw.beta
    have hxn := nameless_subst_of_not_mem hn (y.nameless [])
    rw [subst] at hxn
    simp only [nameless_var, he, hE, subst, substAll, resolve_nil, hxn, Function.update_self]
  exact ((Congruence.law h₁).app (.refl y)).trans (.law h₂)

/-- A function of three variables that is made of them without binders. -/
theorem congruence_three {e : Term → Term → Term → Term} {E : Nameless → Nameless → Nameless → Nameless}
    (he : ∀ Γ x y z, (e x y z).nameless Γ = E (x.nameless Γ) (y.nameless Γ) (z.nameless Γ))
    (hE : ∀ σ r s t, (E r s t).substAll σ = E (r.substAll σ) (s.substAll σ) (t.substAll σ)) (x y z : Term) :
    Congruence LambdaLaw
      (appAll (.lambda (.var "x") (.lambda (.var "y") (.lambda (.var "z") (e (.var "x") (.var "y") (.var "z")))))
        [x, y, z])
      (e x y z) := by
  obtain ⟨m, hm⟩ := NameSupply.exists_not_mem (x.freeOccurrences ++ y.freeOccurrences)
  rw [List.mem_append, not_or] at hm
  obtain ⟨n, hn⟩ := NameSupply.exists_not_mem (m :: x.freeOccurrences)
  rw [List.mem_cons, not_or] at hn
  have hx : x.nameless [m, n] = x.nameless [] := nameless_eq_nil (by rintro k hk h; simp_all; grind)
  have hxm : x.nameless [m] = x.nameless [] := nameless_eq_nil (by rintro k hk h; simp_all)
  have hym : y.nameless [m] = y.nameless [] := nameless_eq_nil (by rintro k hk h; simp_all)
  have hnm : resolve [m, n] n = .bound 1 := by simp [resolve, Ne.symm hn.1]
  have h₁ : LambdaLaw
      (app (.lambda (.var "x") (.lambda (.var "y") (.lambda (.var "z") (e (.var "x") (.var "y") (.var "z"))))) x)
      (.lambda (.var n) (.lambda (.var m) (e x (.var n) (.var m)))) := by
    apply LambdaLaw.beta
    have hxyz : resolve ["z", "y"] "x" = .free "x" := resolve_of_not_mem (by decide)
    have hyz : resolve ["z", "y"] "y" = .bound 1 := by decide
    simp only [nameless_lambda_var, nameless_var, he, hE, subst, substAll, resolve_cons_self, hx, hnm, hxyz, hyz,
      Function.update_self]
  have h₂ : LambdaLaw (app (.lambda (.var n) (.lambda (.var m) (e x (.var n) (.var m)))) y)
      (.lambda (.var m) (e x y (.var m))) := by
    apply LambdaLaw.beta
    have hxn := nameless_subst_of_not_mem hn.2 (y.nameless [])
    have hres : resolve [m] n = .free n := resolve_of_not_mem (by simpa using hn.1)
    rw [subst] at hxn
    simp only [nameless_lambda_var, nameless_var, he, hE, subst, substAll, resolve_cons_self, hxm, hym, hxn, hres,
      Function.update_self]
  have h₃ : LambdaLaw (app (.lambda (.var m) (e x y (.var m))) z) (e x y z) := by
    apply LambdaLaw.beta
    have hxm := nameless_subst_of_not_mem hm.1 (z.nameless [])
    have hym := nameless_subst_of_not_mem hm.2 (z.nameless [])
    rw [subst] at hxm hym
    simp only [nameless_var, he, hE, subst, substAll, resolve_nil, hxm, hym, Function.update_self]
  exact ((((Congruence.law h₁).app (.refl y)).trans (.law h₂)).app (.refl z)).trans (.law h₃)

theorem nameless_app (x y : Term) (Γ : List String) :
    (app x y).nameless Γ = .binary .app (x.nameless Γ) (y.nameless Γ) := rfl

theorem congruence_absorber (x : Term) : Congruence LambdaLaw (app absorber x) absorber := by
  have h₁ : LambdaLaw absorber (.lambda (.var "y") absorber) := .beta (by decide)
  have h₂ : LambdaLaw (app (.lambda (.var "y") absorber) x) absorber := by
    apply LambdaLaw.beta
    exact (nameless_subst_of_not_mem (by decide) _).symm
  exact ((Congruence.law h₁).app (.refl x)).trans (.law h₂)

theorem congruence_fixpoint {y z : String} (hyz : y ≠ z) (hy : y ∉ x.freeOccurrences) (hz : z ∉ x.freeOccurrences) :
    Congruence LambdaLaw (app (Const.primitive .y) x) (x.fixpoint y z) := by
  refine .law (.beta ?_)
  have hx : x.nameless [z, y] = x.nameless [] := nameless_eq_nil (by rintro k hk h; simp_all; grind)
  have hres : resolve [z, y] y = .bound 1 := by simp [resolve, Ne.symm hyz]
  have hxyz : resolve ["z", "y"] "x" = .free "x" := resolve_of_not_mem (by decide)
  have hyz' : resolve ["z", "y"] "y" = .bound 1 := by decide
  simp only [fixpoint, nameless_letrec_var, nameless_lambda_var, nameless_app, nameless_var, subst, substAll,
    resolve_cons_self, hx, hres, hxyz, hyz', Function.update_self]

/-- The laws of combinators are conversions of their λ-terms. -/
theorem CombinatorEquation.expand {t u : Term} (h : CombinatorEquation t u) :
    Congruence LambdaLaw t.expand u.expand := by
  cases h with
  | i => exact .law (.beta (by simp [Nameless.subst, Term.expand]))
  | k x y => exact congruence_two (e := fun x _ => x) (E := fun r _ => r) (fun _ _ _ => rfl) (fun _ _ _ => rfl) _ _
  | w x y =>
    exact congruence_two (e := fun x y => appAll x [y, y]) (E := fun r s => .binary .app (.binary .app r s) s)
      (fun _ _ _ => rfl) (fun _ _ _ => rfl) _ _
  | join x y =>
    exact congruence_two (e := Term.join) (E := .binary .join) (fun _ _ _ => rfl) (fun _ _ _ => rfl) _ _
  | rand x y =>
    exact congruence_two (e := Term.rand) (E := .binary .rand) (fun _ _ _ => rfl) (fun _ _ _ => rfl) _ _
  | b x y z =>
    exact congruence_three (e := fun x y z => app x (app y z)) (E := fun r s t => .binary .app r (.binary .app s t))
      (fun _ _ _ _ => rfl) (fun _ _ _ _ => rfl) _ _ _
  | c x y z =>
    exact congruence_three (e := fun x y z => appAll x [z, y]) (E := fun r s t => .binary .app (.binary .app r t) s)
      (fun _ _ _ _ => rfl) (fun _ _ _ _ => rfl) _ _ _
  | s x y z =>
    exact congruence_three (e := fun x y z => appAll x [z, app y z])
      (E := fun r s t => .binary .app (.binary .app r t) (.binary .app s t))
      (fun _ _ _ _ => rfl) (fun _ _ _ _ => rfl) _ _ _
  | comp x y => exact .refl _
  | top x => exact congruence_absorber _
  | bot x => exact congruence_absorber _
  | @derived o d ho => cases o <;> cases ho <;> exact .refl _
  | fixpoint hyz hy hz =>
    exact congruence_fixpoint hyz (mt mem_freeOccurrences_expand.1 hy) (mt mem_freeOccurrences_expand.1 hz)

theorem LambdaLaw.expand {t u : Term} (h : LambdaLaw t u) : LambdaLaw t.expand u.expand := by
  cases h with
  | alpha h => exact .alpha h.expand
  | @beta n e a _ h =>
    apply LambdaLaw.beta
    show u.expand.nameless [] = (e.expand.nameless []).subst n (a.expand.nameless [])
    rw [nameless_expand, h, Nameless.expand_subst, nameless_expand, nameless_expand]
  | eta hn => exact .eta (mt mem_freeOccurrences_expand.1 hn)
  | definition e hn => exact .definition _ (mt mem_freeOccurrences_expand.1 hn)

end

/-! ### Derivations -/

/-- A derivation with combinators is translated to a conversion. -/
theorem Congruence.expand {t u : Term} (h : Congruence Equation t u) : Congruence LambdaLaw t.expand u.expand := by
  induction h with
  | law h =>
    rcases h with h | h
    · exact .law h.expand
    · exact h.expand
  | refl t => exact .refl _
  | symm _ ih => exact ih.symm
  | trans _ _ ih₁ ih₂ => exact ih₁.trans ih₂
  | unary u _ ih => exact .unary u ih
  | binary b _ _ ihx ihy =>
    cases b with
    | comp => exact ((Congruence.refl _).app ihx).app ihy
    | app | join | rand | define | stack | less | nless | equal => exact .binary _ ihx ihy
  | lambda p _ ih => exact .lambda p ih
  | letrec p _ _ ihd ihe => exact .letrec p ihd ihe

/-- **The equations are conservative**: λ-terms that are equal by them are convertible. -/
theorem Congruence.of_lambdaTerm {t u : Term} (h : Congruence Equation t u) (ht : t.LambdaTerm) (hu : u.LambdaTerm) :
    Congruence LambdaLaw t u := by
  have he := h.expand
  rwa [ht.expand_eq, hu.expand_eq] at he

end Term

end Combinatory
