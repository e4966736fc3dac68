import Combinatory.Proofs.Meaning
import Mathlib.Logic.Relation

/-!
# Head reduction

Weak head reduction contracts the head of an application spine. Which heads it contracts is a parameter, a
relation between a redex and its contractum, since compilation and decompilation go between two languages.

## The laws

* `CombinatorLaw`: the laws of `I`, `K`, `B`, `C`, `CI`, `CB`, `W`, `S` and of `COMP`.
* `FixpointLaw`: `Y x` is `x (Y x)`.
* `DelayedFixpointLaw`: `Y x z` is `x (Y x z)`, a fixed point that is taken only when it is applied.
* `BinderLaw`: β for `LAMBDA`, and unfolding for `LETREC`.

## What is proved

A law is `Sound` if it keeps terms tidy and keeps their meaning. `Sound.reduces` says that a head reduction by
sound laws does too, and `Sound.observed_mem_meaning` that the meaning of a term that reduces to the variable
`f` tells so.
-/

namespace Combinatory

open Value Term

/-! ### Laws -/

/-- The laws of the combinators other than `Y`, and of composition. -/
inductive CombinatorLaw : Term → Term → Prop where
  | i (x : Term) : CombinatorLaw (app (.const .i) x) x
  | k (x y : Term) : CombinatorLaw (app (app (.const .k) x) y) x
  | b (x y z : Term) : CombinatorLaw (app (app (app (.const .b) x) y) z) (app x (app y z))
  | c (x y z : Term) : CombinatorLaw (app (app (app (.const .c) x) y) z) (app (app x z) y)
  | ci (x y : Term) : CombinatorLaw (app (app (.const .ci) x) y) (app y x)
  | cb (x y z : Term) : CombinatorLaw (app (app (app (.const .cb) x) y) z) (app y (app x z))
  | w (x y : Term) : CombinatorLaw (app (app (.const .w) x) y) (app (app x y) y)
  | s (x y z : Term) : CombinatorLaw (app (app (app (.const .s) x) y) z) (app (app x z) (app y z))
  | comp (x y z : Term) : CombinatorLaw (app (comp x y) z) (app x (app y z))

/-- Each side of a combinator's law means the same. -/
theorem CombinatorLaw.meaning {t u : Term} (h : CombinatorLaw t u) {yv : Value} (ρ : String → Value) :
    t.meaning yv ρ = u.meaning yv ρ := by
  cases h <;> simp (disch := fun_prop) only [meaning_app, meaning_comp, meaning_const, Const.meaning, app_lam]

/-- `Y` finds a fixed point. -/
inductive FixpointLaw : Term → Term → Prop where
  | y (x : Term) : FixpointLaw (app (.const .y) x) (app x (app (.const .y) x))

/-- `Y` finds a fixed point once it is applied. -/
inductive DelayedFixpointLaw : Term → Term → Prop where
  | y (x z : Term) :
    DelayedFixpointLaw (app (app (.const .y) x) z) (app x (app (app (.const .y) x) z))

/-- The laws of the binders. -/
inductive BinderLaw : Term → Term → Prop where
  | beta (n : String) (e a : Term) : BinderLaw (app (lambda (.var n) e) a) (substitute n a e)
  | unfold (n : String) (d e : Term) :
    BinderLaw (letrec (.var n) d e) (substitute n (substitute n (letrec (.var n) d (.var n)) d) e)

theorem BinderLaw.beta_eq {n : String} {e a u : Term} (h : substitute n a e = u) :
    BinderLaw (app (lambda (.var n) e) a) u := h ▸ .beta n e a

theorem BinderLaw.unfold_eq {n : String} {d e u : Term}
    (h : substitute n (substitute n (letrec (.var n) d (.var n)) d) e = u) :
    BinderLaw (letrec (.var n) d e) u := h ▸ .unfold n d e

theorem BinderLaw.tidy {t u : Term} (h : BinderLaw t u) (ht : t.Tidy) : u.Tidy := by
  cases h with
  | beta n e a =>
    simp only [tidy_binary, tidy_lambda] at ht
    exact tidy_substitute ht.2 ht.1.2
  | unfold n d e =>
    simp only [tidy_letrec] at ht
    exact tidy_substitute (tidy_substitute (by simpa using ⟨ht.1, ht.2.1⟩) ht.2.1) ht.2.2

/-- One contraction at the head of a spine. -/
inductive HeadStep (R : Term → Term → Prop) : Term → Term → Prop where
  | contract {t u : Term} : R t u → HeadStep R t u
  | app {t u : Term} (a : Term) : HeadStep R t u → HeadStep R (.app t a) (.app u a)

/-- Head reduction, in finitely many steps. -/
def Reduces (R : Term → Term → Prop) : Term → Term → Prop := Relation.ReflTransGen (HeadStep R)

/-! ### Soundness -/

/-- The fixed point of a function, as a value. -/
def fixpointValue : Value := lam fun x => fix fun y => Value.app x y

/-- The fixed point of a function that is taken once it is applied. -/
def delayedFixpointValue : Value := lam fun x => fix fun y => lam fun z => Value.app x (Value.app y z)

/-- Laws that keep terms tidy and keep their meaning. -/
structure Sound (yv : Value) (R : Term → Term → Prop) : Prop where
  /-- The contractum is tidy. -/
  tidy {t u : Term} : R t u → t.Tidy → u.Tidy
  /-- The contractum means the same. -/
  meaning {t u : Term} (ρ : String → Value) : R t u → t.Tidy → t.meaning yv ρ = u.meaning yv ρ

namespace Sound

variable {yv : Value} {R R' : Term → Term → Prop}

theorem or (h : Sound yv R) (h' : Sound yv R') : Sound yv fun t u => R t u ∨ R' t u where
  tidy := by
    rintro t u (hr | hr) ht
    · exact h.tidy hr ht
    · exact h'.tidy hr ht
  meaning := by
    rintro t u ρ (hr | hr) ht
    · exact h.meaning ρ hr ht
    · exact h'.meaning ρ hr ht

theorem combinatorLaw : Sound yv CombinatorLaw where
  tidy h ht := by cases h <;> simp_all
  meaning ρ h _ := h.meaning ρ

theorem fixpointLaw : Sound fixpointValue FixpointLaw where
  tidy h ht := by cases h; simp_all
  meaning ρ h _ := by
    obtain ⟨x⟩ := h
    simp (disch := fun_prop) only [meaning_app, meaning_const, Const.meaning, fixpointValue, app_lam]
    exact (fix_eq (by fun_prop)).symm

theorem delayedFixpointLaw : Sound delayedFixpointValue DelayedFixpointLaw where
  tidy h ht := by cases h; simp_all
  meaning ρ h _ := by
    obtain ⟨x, z⟩ := h
    simp (disch := fun_prop) only [meaning_app, meaning_const, Const.meaning, delayedFixpointValue, app_lam]
    nth_rewrite 1 [← fix_eq (by fun_prop)]
    rw [app_lam (by fun_prop)]

theorem binderLaw : Sound yv BinderLaw where
  tidy := BinderLaw.tidy
  meaning ρ h ht := by
    cases h with
    | beta n e a =>
      simp only [tidy_binary, tidy_lambda] at ht
      rw [meaning_substitute ht.1.2, meaning_app, meaning_lambda, app_lam (e.finitary_meaning n)]
    | unfold n d e =>
      simp only [tidy_letrec] at ht
      rw [meaning_substitute ht.2.2, meaning_substitute ht.2.1, meaning_letrec, meaning_letrec, meaning_var,
        Function.update_self, fix_eq (d.finitary_meaning n)]

theorem headStep (h : Sound yv R) {t u : Term} (hs : HeadStep R t u) (ht : t.Tidy) :
    u.Tidy ∧ ∀ ρ, t.meaning yv ρ = u.meaning yv ρ := by
  induction hs with
  | contract hr => exact ⟨h.tidy hr ht, fun ρ => h.meaning ρ hr ht⟩
  | app a _ ih =>
    rw [tidy_binary] at ht
    obtain ⟨hu, hm⟩ := ih ht.1
    exact ⟨tidy_binary.2 ⟨hu, ht.2⟩, fun ρ => by rw [meaning_app, meaning_app, hm]⟩

theorem reduces (h : Sound yv R) {t u : Term} (hs : Reduces R t u) (ht : t.Tidy) :
    u.Tidy ∧ ∀ ρ, t.meaning yv ρ = u.meaning yv ρ := by
  induction hs with
  | refl => exact ⟨ht, fun _ => rfl⟩
  | tail _ hs ih =>
    obtain ⟨hu, hm⟩ := h.headStep hs ih.1
    exact ⟨hu, fun ρ => (ih.2 ρ).trans (hm ρ)⟩

end Sound

/-- The values of the variables when `f` is observed and nothing is known about the others. -/
def observing (f : String) : String → Value := Function.update ⊥ f (known {.observed})

/-- **Soundness of meanings**: that a term reduces to the observed variable is known about its value. -/
theorem Sound.observed_mem_meaning {yv : Value} {R : Term → Term → Prop} (h : Sound yv R) {t : Term} {f : String}
    (ht : t.Tidy) (hs : Reduces R t (.var f)) : .observed ∈ t.meaning yv (observing f) := by
  rw [(h.reduces hs ht).2, meaning_var, observing, Function.update_self]
  exact mem_known_of_mem (Set.mem_singleton _)

end Combinatory
