import Combinatory.Proofs.AffineTerms
import Combinatory.Proofs.Compilation
import Combinatory.Proofs.Conservativity

/-!
# Compilation and decompilation

A λ-term without definitions can be compiled, its code can be decompiled, and what comes out is convertible with the
simplified term. Decompilation reduces below abstractions, where simplification does not, and simplification contracts
redexes that decompilation leaves, so the two may differ (`not_alphaEq_decompile_compile`). If the term uses no bound
variable twice and simplification leaves no redex, they are the same term.

## The proof

Convertibility goes by way of the equations of combinators. A term is equal to its code (`Compiles.congruence`): the
abstraction of a variable, applied to the variable, is equal to what it was abstracted from, and η does the rest. Code
is equal to the term that it is decompiled to. Both ends are λ-terms, so they are convertible without combinators
(`Congruence.of_lambdaTerm`).
-/

namespace Combinatory

open Nameless

namespace Term

variable {v : String} {t u c x y z : Term}

/-! ### Code is equal to its term -/

section

open Congruence

theorem congruence_comp (x y z : Term) : Congruence Equation (app (comp x y) z) (app x (app y z)) :=
  ((combinator (.comp x y)).app (.refl z)).trans (combinator (.b x y z))

theorem congruence_cb (x y : Term) : Congruence Equation (app (app (.const .cb) y) x) (comp x y) := by
  have hcb : Congruence Equation (.const .cb) (app (.const .c) (.const .b)) := combinator (.derived rfl)
  refine ((hcb.app (.refl y)).app (.refl x)).trans ?_
  exact (combinator (.c (.const .b) y x)).trans (combinator (.comp x y)).symm

/-- **Application to the variable undoes abstraction**, up to the equations. -/
theorem Abstracts.congruence (h : Abstracts v c u) (hc : c.Code) (hv : c.Unshared v) :
    Congruence Equation (app u (.var v)) c := by
  induction h with
  | var => exact combinator (.i _)
  | appEta _ => exact .refl _
  | appRight _ _ _ ih => exact (congruence_comp _ _ _).trans (.app (.refl _) (ih hc.2 hv.2))
  | @appLeft x y tx _ _ ih => exact (combinator (.c tx y _)).trans (.app (ih hc.1 hv.1) (.refl _))
  | @appTwice x tx _ ih => exact (combinator (.w tx _)).trans (.app (ih hc.1 hv.1) (.refl _))
  | @appBoth x y tx ty _ _ _ ihx ihy =>
    exact (combinator (.s tx ty _)).trans (.app (ihx hc.1 hv.1) (ihy hc.2 hv.2))
  | @compEta x _ => exact (combinator (.comp x _)).symm
  | @compRight x y ty _ _ _ ih =>
    refine (congruence_comp _ _ _).trans ((combinator (.comp x _)).symm.trans ?_)
    exact .binary _ (.refl _) (ih hc.2 hv.2.2)
  | compLeft _ _ ih =>
    refine (congruence_comp _ _ _).trans ((congruence_cb _ _).trans ?_)
    exact .binary _ (ih hc.1 hv.2.1) (.refl _)
  | compBoth hx hy => exact absurd hv (not_unshared_comp hx hy)
  | joinEta | joinRight | joinLeft | joinBoth | randRight | randLeft | randBoth => exact hc.elim

/-- What is equal to the body of an abstraction when it is applied to the variable is equal to the abstraction. -/
theorem congruence_lambda {e : Term} (he : Congruence Equation e (app u (.var v))) (hv : v ∉ u.freeOccurrences) :
    Congruence Equation (.lambda (.var v) e) u :=
  (Congruence.lambda _ he).trans (.lambdaLaw (.eta hv))

/-- **A term is equal to its code**, up to the equations. -/
theorem Compiles.congruence (h : Compiles t c) (ht : t.PureTerm) (hf : t.Faithful) : Congruence Equation t c := by
  induction h with
  | var n => exact .refl _
  | binary b _ _ ihx ihy =>
    obtain _ | ⟨hx, hy⟩ := ht
    exact .binary _ (ihx hx hf.1) (ihy hy hf.2)
  | @constant v e c _ hv ih =>
    obtain _ | _ | ⟨_, he⟩ := ht
    refine congruence_lambda ((ih he hf.1).trans (combinator (.k c (.var v))).symm) ?_
    simpa [freeOccurrences] using hv
  | abstract hc hu ih =>
    obtain _ | _ | ⟨_, he⟩ := ht
    have habstract := hu.congruence (hc.code he) (hf.2 _ hc.compile)
    exact congruence_lambda ((ih he hf.1).trans habstract.symm) hu.not_mem
  | name _ | const _ | unary | unused | plain | recursive => cases ht

end

/-! ### Decompilation of code -/

/-- The heads of code are those of variables, application, composition and combinators. -/
theorem Code.forall_heads {P : Head → Prop} (hvar : P .var) (happ : P (.binary .app)) (hcomp : P (.binary .comp))
    (hconst : ∀ o : Const, 0 < o.parameters → P (.const o)) (hc : c.Code) : ∀ a ∈ c.heads, P a := by
  induction c with
  | var n => simpa [heads] using hvar
  | const o => simpa [heads] using hconst o hc
  | binary b x y ihx ihy =>
    cases b with
    | app =>
      rw [heads, List.forall_mem_cons, List.forall_mem_append]
      exact ⟨happ, ihx hc.1, ihy hc.2⟩
    | comp =>
      rw [heads, List.forall_mem_cons, List.forall_mem_append]
      exact ⟨hcomp, ihx hc.1, ihy hc.2⟩
    | join | rand | define | stack | less | nless | equal => exact hc.elim
  | name _ | unary _ _ | lambda _ _ | letrec _ _ _ => exact hc.elim

theorem Code.exists_decompileRaw (hc : c.Code) : ∃ r, c.decompileRaw = .ok r := by
  apply Term.exists_decompileRaw hc.wellFormed_and_binderFree.1
  refine hc.forall_heads (by decide) (by decide) (by decide) fun o ho => ?_
  constructor
  · rintro ⟨⟩
    exact absurd ho (by decide)
  · rintro ⟨⟩
    exact absurd ho (by decide)

theorem Code.congruence_decompileRaw (hc : c.Code) (hu : c.decompileRaw = .ok u) : Congruence Equation c u := by
  obtain ⟨ns, h⟩ := decompiles_of_decompileRaw hu
  refine h.congruence (over_of_heads ?_ (fun _ _ => trivial) (.inl trivial))
  refine hc.forall_heads trivial trivial trivial fun o ho => ?_
  show o.comparison? = none
  exact Option.eq_none_iff_forall_ne_some.2 fun b hb => not_code_of_comparison? hb ho

/-! ### Simplification of λ-terms -/

theorem LambdaTerm.linearBinders (h : t.LambdaTerm) : t.LinearBinders := by
  induction h using LambdaTerm.induction with
  | var n => trivial
  | app _ _ ihx ihy => exact ⟨ihx, ihy⟩
  | lambda n _ ihe => exact ⟨List.nodup_singleton n, ihe⟩
  | letrec n _ _ ihd ihe => exact ⟨List.nodup_singleton n, ihd, ihe⟩

theorem Simplifies.congruence (h : Simplifies t u) (ht : t.LambdaTerm) : Congruence LambdaLaw t u := by
  induction h with
  | refl t => exact .refl t
  | trans h₁ _ ih₁ ih₂ => exact (ih₁ ht).trans (ih₂ (h₁.lambdaTerm ht))
  | app _ _ ihx ihy => exact .app (ihx ht.1) (ihy ht.2)
  | topApp | botApp => exact ht.1.elim
  | topJoin | joinTop | botJoin | joinBot => exact ht.elim
  | eta hn => exact .law (.eta (count_eq_zero_iff.1 hn))
  | beta n e a => exact .law (.beta (nameless_substitute_nil (LambdaTerm.tidy (t := e) ht.1)))

theorem LambdaTerm.exists_simplify (ht : t.LambdaTerm) : ∃ s, t.simplify = .ok s :=
  Term.exists_simplify ht.tidy ht.linearBinders

/-- A λ-term is convertible with the simplified term. -/
theorem LambdaTerm.congruence_simplify (ht : t.LambdaTerm) (hu : t.simplify = .ok u) : Congruence LambdaLaw t u := by
  have hs := simplifies_normalize t
  have hα : AlphaEq t.normalize u := (canonicalForm_canonical (hs.lambdaTerm ht).tidy.1 hu).2.alphaEq.symm
  exact (hs.congruence ht).trans (.law (.alpha hα))

/-! ### There and back -/

/-- The decompiled code of a faithful term is convertible with the term. -/
theorem Compiles.congruence_decompileRaw {r : Term} (hc : Compiles t c) (ht : t.PureTerm) (hf : t.Faithful)
    (hr : c.decompileRaw = .ok r) : Congruence LambdaLaw t r := by
  have hcode := hc.code ht
  have hequal := (hc.congruence ht hf).trans (hcode.congruence_decompileRaw hr)
  exact hequal.of_lambdaTerm ht.lambdaTerm (sameMeaning_decompileRaw hcode hr).1

/-- What the code of an affine term is decompiled to is simplified to what the term is, if that is normal. -/
theorem Compiles.eq_of_simplify {r s : Term} (hc : Compiles t c) (ht : t.AffineTerm) (hr : c.decompileRaw = .ok r)
    (hu : r.simplify = .ok u) (hs : t.simplify = .ok s) (hn : s.BetaEtaNormal) : u = s := by
  have htidy := ((simplifies_normalize t).affineTerm ht).tidy
  have hform := (canonicalForm_canonical htidy.1 hs).2
  have hα : AlphaEq r t.normalize := by
    refine alphaEq_decompileRaw ht ?_ hc hr
    rwa [BetaEtaNormal, ← hform.alphaEq]
  have hnormal : r.Normal := (normal_normalize t).of_alphaEq hα.symm
  have hlambda := (sameMeaning_decompileRaw (hc.code ht.pureTerm) hr).1
  rw [simplify, normalize_of_normal hnormal] at hu
  exact (canonicalForm_canonical hlambda.tidy.1 hu).2.eq_of_alphaEq hform hα

/-- **There and back**: a λ-term without definitions can be compiled, its code can be decompiled, and the result is
convertible with the simplified term. If no bound variable is used twice and no redex is left, it is the simplified
term. -/
theorem decompile_compile (ht : t.PureTerm) :
    ∃ c u s, t.compile = .ok c ∧ c.decompile = .ok u ∧ t.simplify = .ok s ∧
      (t.Faithful → Congruence LambdaLaw u s) ∧ (t.AffineTerm → s.BetaEtaNormal → u = s) := by
  obtain ⟨c, hc⟩ := ht.exists_compiles
  have hcode := hc.code ht
  obtain ⟨r, hr⟩ := hcode.exists_decompileRaw
  have hlambda := (sameMeaning_decompileRaw hcode hr).1
  obtain ⟨u, hu⟩ := hlambda.exists_simplify
  obtain ⟨s, hs⟩ := ht.lambdaTerm.exists_simplify
  refine ⟨c, u, s, hc.compile, bind_eq_ok.2 ⟨r, hr, hu⟩, hs, fun hf => ?_, fun ha hn => ?_⟩
  · have htr := hc.congruence_decompileRaw ht hf hr
    exact (hlambda.congruence_simplify hu).symm.trans (htr.symm.trans (ht.lambdaTerm.congruence_simplify hs))
  · exact hc.eq_of_simplify ha hr hu hs hn

/-- `(LAMBDA x. LAMBDA y. f (y x)) g` is affine, and is simplified to the normal term `LAMBDA a. f (a g)`. For
`LAMBDA x. x x`, which is not affine, a redex of the decompiled term is left. -/
theorem decompile_compile_redex :
    (∃ c,
      (app (.lambda (.var "x") (.lambda (.var "y") (app (.var "f") (app (.var "y") (.var "x"))))) (.var "g")).compile =
        .ok c ∧
      c.decompile = .ok (.lambda (.var "a") (app (.var "f") (app (.var "a") (.var "g"))))) ∧
    Congruence LambdaLaw
      (.lambda (.var "a") (appAll (.lambda (.var "b") (.var "b")) [.var "a", .var "a"]))
      (.lambda (.var "a") (app (.var "a") (.var "a"))) := by
  constructor
  · have ha : (app (.lambda (.var "x") (.lambda (.var "y") (app (.var "f") (app (.var "y") (.var "x")))))
        (.var "g")).AffineTerm := by
      refine .app (.lambda ?_ (.lambda ?_ (.app (.var _) (.app (.var _) (.var _))))) (.var _)
      · decide
      · decide
    obtain ⟨c, u, s, hc, hu, hs, -, heq⟩ := decompile_compile ha.pureTerm
    obtain rfl : .lambda (.var "a") (app (.var "f") (app (.var "a") (.var "g"))) = s :=
      Except.ok.inj (Eq.trans (by decide +kernel) hs)
    refine ⟨c, hc, ?_⟩
    rwa [← heq ha (by simp [BetaEtaNormal, Nameless.BetaEtaNormal, EtaBody, resolve, payloads, binders])]
  · obtain ⟨c, u, s, hc, hu, hs, hconv, -⟩ :=
      decompile_compile (.lambda "x" (.app (.var "x") (.var "x")))
    obtain rfl : .lambda (.var "a") (app (.var "a") (.var "a")) = s := Except.ok.inj (Eq.trans (by decide +kernel) hs)
    obtain rfl : app (.const .w) (.const .i) = c := Except.ok.inj (Eq.trans (by decide +kernel) hc)
    obtain rfl : .lambda (.var "a") (appAll (.lambda (.var "b") (.var "b")) [.var "a", .var "a"]) = u :=
      Except.ok.inj (Eq.trans (by decide +kernel) hu)
    refine hconv ⟨⟨trivial, trivial⟩, fun c hc => ?_⟩
    obtain rfl : app (.var "x") (.var "x") = c := Except.ok.inj hc
    exact ⟨trivial, trivial⟩

/-- `LAMBDA x. f ((LAMBDA y. y) x)` is compiled to `COMP f I`, which is decompiled to `f`. Simplification leaves the
body of the abstraction as it is. -/
theorem not_alphaEq_decompile_compile :
    (Term.lambda (.var "x") (app (.var "f") (app (.lambda (.var "y") (.var "y")) (.var "x")))).PureTerm ∧
      (Term.lambda (.var "x") (app (.var "f") (app (.lambda (.var "y") (.var "y")) (.var "x")))).compile =
        .ok (comp (.var "f") (.const .i)) ∧
      (comp (.var "f") (.const .i)).decompile = .ok (.var "f") ∧
      (Term.lambda (.var "x") (app (.var "f") (app (.lambda (.var "y") (.var "y")) (.var "x")))).simplify =
        .ok (.lambda (.var "a") (app (.var "f") (app (.lambda (.var "b") (.var "b")) (.var "a")))) ∧
      ¬AlphaEq (.var "f") (.lambda (.var "a") (app (.var "f") (app (.lambda (.var "b") (.var "b")) (.var "a")))) := by
  refine ⟨?_, by decide, by decide +kernel, by decide +kernel, by unfold AlphaEq; decide⟩
  exact .lambda _ (.app (.var _) (.app (.lambda _ (.var _)) (.var _)))

end Term

end Combinatory
