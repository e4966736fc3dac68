import Combinatory.Proofs.Adequacy
import Combinatory.Proofs.BracketAbstraction

/-!
# Behaviour of compiled terms

What a λ-term can be seen to do, its combinator code does too: if the term reduces to a variable, so does the
code. This fails where a variable is drawn out of a composition that has it on both sides.

## What is proved

* `Abstracts.meaning_le`: the abstraction of a variable, applied to a value of the variable, means at least what the
  term means, as long as the variable is `Unshared` in the term.
* `meaning_le_compile`: the code of a `Faithful` term means at least what the term means.
* `reduces_compile`: the code of a faithful term reduces to each variable that the term reduces to.
* `not_reduces_compile_shared`: a term that is not faithful, and its code, which does not reduce to the variable
  that the term reduces to.
-/

namespace Combinatory

open Value

/-- The laws of terms with combinators and binders. -/
def ProgramLaw (t u : Term) : Prop := CombinatorLaw t u ∨ FixpointLaw t u ∨ BinderLaw t u

theorem combinatorLaw_le : CombinatorLaw ≤ ProgramLaw := fun _ _ => .inl

theorem fixpointLaw_le : FixpointLaw ≤ ProgramLaw := fun _ _ h => .inr (.inl h)

theorem binderLaw_le : BinderLaw ≤ ProgramLaw := fun _ _ h => .inr (.inr h)

theorem sound_programLaw : Sound fixpointValue ProgramLaw :=
  Sound.combinatorLaw.or (Sound.fixpointLaw.or Sound.binderLaw)

theorem complete_programLaw (f : String) : Complete ProgramLaw f fixpointValue :=
  ⟨combinatorLaw_le, realizes_y fixpointLaw_le⟩

namespace Term

/-- No composition that the variable is drawn through has it on both sides. -/
def Unshared (v : String) : Term → Prop
  | .app x y | .join x y | .rand x y => x.Unshared v ∧ y.Unshared v
  | .comp x y => (v ∉ x.freeOccurrences ∨ v ∉ y.freeOccurrences) ∧ x.Unshared v ∧ y.Unshared v
  | _ => True

/-- Compilation draws no variable through a composition that has it on both sides. A definition that is not used
is dropped, so nothing is asked of it. -/
def Faithful : Term → Prop
  | .unary _ x => x.Faithful
  | .binary _ x y => x.Faithful ∧ y.Faithful
  | .lambda (.var v) e => e.Faithful ∧ ∀ c, e.compile = .ok c → c.Unshared v
  | .letrec (.var v) d e => e.Faithful ∧ ∀ c, e.compile = .ok c → v ∈ c.freeOccurrences →
      c.Unshared v ∧ d.Faithful ∧ ∀ b, d.compile = .ok b → b.Unshared v
  | _ => True

/-! ### Abstraction -/

section

variable {v : String} {t u c x y : Term}

/-- A variable that is abstracted from both sides of a composition is shared. -/
theorem not_unshared_comp {tx ty : Term} (hx : Abstracts v x tx) (hy : Abstracts v y ty) :
    ¬(comp x y).Unshared v := by
  rintro ⟨h, -⟩
  exact h.elim (· hx.mem_freeOccurrences) (· hy.mem_freeOccurrences)

/-- **Abstraction** of an unshared variable keeps the meaning. -/
theorem Abstracts.meaning_le (h : Abstracts v t u) (hv : t.Unshared v) (ρ : String → Value) (z : Value) :
    t.meaning fixpointValue (Function.update ρ v z) ≤ Value.app (u.meaning fixpointValue ρ) z := by
  induction h with
  | var => rw [meaning_var, Function.update_self, meaning_const, Const.meaning, app_lam finitary_id]
  | appEta hx => rw [meaning_app, meaning_var, Function.update_self, meaning_update_of_not_mem hx]
  | appRight hx _ _ ih =>
    rw [meaning_app, meaning_update_of_not_mem hx, meaning_comp, app_lam (by fun_prop)]
    exact app_mono le_rfl (ih hv.2)
  | appLeft hy _ ih =>
    simp (disch := fun_prop) only [appAll_cons, appAll_nil, meaning_app, meaning_const, Const.meaning, app_lam]
    rw [meaning_update_of_not_mem hy]
    exact app_mono (ih hv.1) le_rfl
  | appTwice _ ih =>
    simp (disch := fun_prop) only [meaning_app, meaning_const, Const.meaning, app_lam]
    rw [meaning_var, Function.update_self]
    exact app_mono (ih hv.1) le_rfl
  | appBoth _ _ _ ihx ihy =>
    simp (disch := fun_prop) only [appAll_cons, appAll_nil, meaning_app, meaning_const, Const.meaning, app_lam]
    exact app_mono (ihx hv.1) (ihy hv.2)
  | compEta hx =>
    simp (disch := fun_prop) only [meaning_comp, meaning_app, meaning_const, Const.meaning, app_lam]
    rw [meaning_var, Function.update_self, meaning_update_of_not_mem hx]
  | compRight hx _ _ ih =>
    simp (disch := fun_prop) only [meaning_comp, meaning_app, meaning_const, Const.meaning, app_lam]
    rw [meaning_update_of_not_mem hx]
    exact lam_mono fun w => app_mono le_rfl (app_mono (ih hv.2.2) le_rfl)
  | compLeft hy _ ih =>
    simp (disch := fun_prop) only [meaning_comp, meaning_app, meaning_const, Const.meaning, app_lam]
    rw [meaning_update_of_not_mem hy]
    exact lam_mono fun w => app_mono (ih hv.2.1) le_rfl
  | compBoth hx hy => exact absurd hv (not_unshared_comp hx hy)
  | joinEta | joinRight | joinLeft | joinBoth | randRight | randLeft | randBoth => exact bot_le

/-! ### Compilation -/

/-- **Compilation** of a faithful term keeps the meaning. -/
theorem Compiles.meaning_le (h : Compiles t c) (ht : t.Faithful) (ρ : String → Value) :
    t.meaning fixpointValue ρ ≤ c.meaning fixpointValue ρ := by
  induction h generalizing ρ with
  | name _ | unary _ _ => exact bot_le
  | const _ | var _ => exact le_rfl
  | binary b _ _ ihx ihy =>
    cases b with
    | app => exact app_mono (ihx ht.1 ρ) (ihy ht.2 ρ)
    | comp => exact lam_mono fun z => app_mono (ihx ht.1 ρ) (app_mono (ihy ht.2 ρ) le_rfl)
    | join | rand | define | stack | less | nless | equal => exact bot_le
  | constant _ hv ih =>
    rw [meaning_lambda]
    simp (disch := fun_prop) only [meaning_app, meaning_const, Const.meaning, app_lam]
    exact lam_mono fun z => (ih ht.1 _).trans (meaning_update_of_not_mem hv z).le
  | abstract hc hu ih =>
    rw [meaning_lambda]
    refine le_trans (lam_mono fun z => ?_) (lam_app_le _)
    exact (ih ht.1 _).trans (hu.meaning_le (ht.2 _ hc.compile) ρ z)
  | unused _ _ hv _ ihe =>
    rw [meaning_letrec]
    exact (ihe ht.1 _).trans (meaning_update_of_not_mem hv _).le
  | @plain v d e b c u _ hc hu hv ihd ihe =>
    obtain ⟨huc, htd, -⟩ := ht.2 _ hc.compile hu.mem_freeOccurrences
    rw [meaning_letrec, meaning_app]
    refine ((ihe ht.1 _).trans (hu.meaning_le huc ρ _)).trans (app_mono le_rfl ?_)
    -- the definition does not refer to itself, so it is its own fixed point
    apply fix_le (d.finitary_meaning v).mono
    exact (ihd htd _).trans (meaning_update_of_not_mem hv _).le
  | recursive hb hc hu hw ihd ihe =>
    obtain ⟨huc, htd, hub⟩ := ht.2 _ hc.compile hu.mem_freeOccurrences
    rw [meaning_letrec, meaning_app, meaning_app, meaning_const, Const.meaning, fixpointValue, app_lam (by fun_prop)]
    refine ((ihe ht.1 _).trans (hu.meaning_le huc ρ _)).trans (app_mono le_rfl ?_)
    exact fix_mono fun z => (ihd htd _).trans (hw.meaning_le (hub _ hb.compile) ρ z)

theorem meaning_le_compile (h : t.compile = .ok c) (ht : t.Faithful) (ρ : String → Value) :
    t.meaning fixpointValue ρ ≤ c.meaning fixpointValue ρ :=
  (compile_eq_ok_iff.1 h).meaning_le ht ρ

/-! ### Code is tidy -/

theorem Abstracts.tidy (h : Abstracts v t u) (ht : t.Tidy) : u.Tidy :=
  h.keeps (H := fun _ => True) tidy_const trivial trivial (by simp) ht

/-- A term that compiles has only binders of a single variable, and so is tidy if it is well formed; its code
is tidy too. -/
theorem Compiles.tidy (h : Compiles t c) (ht : t.WellFormed) : t.Tidy ∧ c.Tidy := by
  induction h with
  | name _ => exact ht.elim
  | const _ | var _ => simp
  | unary _ _ ih => exact ih ht
  | binary _ _ _ ihx ihy =>
    obtain ⟨⟨hx, hcx⟩, hy, hcy⟩ := And.intro (ihx ht.1) (ihy ht.2)
    exact ⟨tidy_binary.2 ⟨hx, hy⟩, tidy_binary.2 ⟨hcx, hcy⟩⟩
  | constant _ _ ih =>
    obtain ⟨he, hc⟩ := ih ht.2
    exact ⟨tidy_lambda.2 ⟨⟨trivial, trivial⟩, he⟩, tidy_binary.2 ⟨tidy_const _, hc⟩⟩
  | abstract _ hu ih =>
    obtain ⟨he, hc⟩ := ih ht.2
    exact ⟨tidy_lambda.2 ⟨⟨trivial, trivial⟩, he⟩, hu.tidy hc⟩
  | unused _ _ _ ihd ihe =>
    obtain ⟨⟨hd, -⟩, he, hc⟩ := And.intro (ihd ht.2.1) (ihe ht.2.2)
    exact ⟨tidy_letrec.2 ⟨⟨trivial, trivial⟩, hd, he⟩, hc⟩
  | plain _ _ hu _ ihd ihe =>
    obtain ⟨⟨hd, hb⟩, he, hc⟩ := And.intro (ihd ht.2.1) (ihe ht.2.2)
    exact ⟨tidy_letrec.2 ⟨⟨trivial, trivial⟩, hd, he⟩, tidy_binary.2 ⟨hu.tidy hc, hb⟩⟩
  | recursive _ _ hu hw ihd ihe =>
    obtain ⟨⟨hd, hb⟩, he, hc⟩ := And.intro (ihd ht.2.1) (ihe ht.2.2)
    refine ⟨tidy_letrec.2 ⟨⟨trivial, trivial⟩, hd, he⟩, tidy_binary.2 ⟨hu.tidy hc, ?_⟩⟩
    exact tidy_binary.2 ⟨tidy_const _, hw.tidy hb⟩

theorem tidy_compile (h : t.compile = .ok c) (ht : t.WellFormed) : t.Tidy ∧ c.Tidy :=
  (compile_eq_ok_iff.1 h).tidy ht

end

/-! ### Behaviour -/

/-- **Compilation preserves behaviour**: where no variable is drawn through a composition that has it on both
sides, the code reduces to each variable that the term reduces to. -/
theorem reduces_compile {t c : Term} {f : String} (ht : t.WellFormed) (hc : t.compile = .ok c)
    (hs : t.Faithful) (h : Reduces ProgramLaw t (.var f)) : Reduces ProgramLaw c (.var f) := by
  obtain ⟨htidy, hctidy⟩ := tidy_compile hc ht
  have hobs := sound_programLaw.observed_mem_meaning htidy h
  exact reduces_of_observed_mem_meaning (.inr binderLaw_le) (.inr (complete_programLaw f)) hctidy
    (meaning_le_compile hc hs _ hobs)

/-- `LETREC y (LAMBDA x. K x (y x)) (y f)` is faithful, and its code reduces to `f` as it does. -/
theorem reduces_compile_recursion :
    Reduces ProgramLaw
        (.letrec (.var "y") (.lambda (.var "x") (appAll (.const .k) [.var "x", app (.var "y") (.var "x")]))
          (app (.var "y") (.var "f")))
        (.var "f") ∧
      Reduces ProgramLaw
        (app (appAll (.const .c) [.const .i, .var "f"]) (app (.const .y) (app (.const .s) (.const .k))))
        (.var "f") := by
  have h : Reduces ProgramLaw
      (.letrec (.var "y") (.lambda (.var "x") (appAll (.const .k) [.var "x", app (.var "y") (.var "x")]))
        (app (.var "y") (.var "f")))
      (.var "f") := by
    refine .head (.contract (binderLaw_le _ _ (.unfold_eq (by cbv)))) ?_
    refine .head (.contract (binderLaw_le _ _ (.beta_eq (by cbv)))) ?_
    exact .head (.contract (combinatorLaw_le _ _ (.k _ _))) .refl
  refine ⟨h, reduces_compile (by simp [WellFormed]) rfl ?_ h⟩
  simp [-bind_pure_comp, bind_eq_ok, pure_eq_ok, Faithful, Unshared, compile, compileLambda, bracket, bracketOther,
    bracketApp, count, freeOccurrences]

/-- `(LAMBDA v. COMP (K v) v) f g` reduces to `f`. The variable is on both sides of the composition, and the code
`S (B K) I f g` reduces to `f (I f)` instead. -/
theorem not_reduces_compile_shared :
    ∃ t c : Term, t.WellFormed ∧ t.compile = .ok c ∧ Reduces ProgramLaw t (.var "f") ∧
      ¬Reduces ProgramLaw c (.var "f") := by
  refine ⟨appAll (.lambda (.var "v") (comp (app (.const .k) (.var "v")) (.var "v"))) [.var "f", .var "g"],
    appAll (.const .s) [app (.const .b) (.const .k), .const .i, .var "f", .var "g"],
    by simp [WellFormed], rfl, ?_, fun h => ?_⟩
  · refine .head (.app _ (.contract (binderLaw_le _ _ (.beta_eq (by cbv))))) ?_
    refine .head (.contract (combinatorLaw_le _ _ (.comp _ _ _))) ?_
    exact .head (.contract (combinatorLaw_le _ _ (.k _ _))) .refl
  · -- about the variable `f` it is known that it is no function
    have hobs := sound_programLaw.observed_mem_meaning (by simp) h
    simp (disch := fun_prop) only [appAll_cons, appAll_nil, meaning_app, meaning_const, meaning_var, Const.meaning,
      app_lam, observing, Function.update_self] at hobs
    obtain ⟨k, M, hM, -⟩ := mem_app.1 hobs
    obtain ⟨_, rfl, hle⟩ := mem_lowerClosure.1 hM
    cases hle

end Term

end Combinatory
