import Combinatory.Proofs.NormalForm
import Combinatory.Proofs.Substitution

/-!
# Affine normal forms are convertible

Normalization goes by the laws of β, η and the lattice, so the normal form of a term is convertible to the term,
and no variable is free in it that is not free in the term. It is well formed if the term is.

## The model

`Conv` is convertibility of well-formed terms: the least congruence with the change of bound names, β and η for
binders of a single variable, and the laws of `TOP`, `BOT` and `JOIN`. The β-law is stated with the substitution
of nameless forms, which cannot capture. Patterns of binders are not converted, only what stands below them: the
congruence that converts patterns too has more pairs, so to be convertible here says more.

`Simplifies` lists the rewriting that normalization does. Each rule of `Normalizes` is made of it, so what is kept by
each way to simplify is kept by normalization. `Hereditary` gathers what a property must have for that.

## What is proved

* `conv_normalize`: a term with simple binders is convertible to its normal form, and every free variable of the
  normal form is one of the term.
* `normalize_normal_iff`: the normal form is well formed and normal, and only normal terms are their own normal forms.
-/

namespace Combinatory.Term

/-! ### Simplification -/

/-- What normalization may do to a term. -/
inductive Simplifies : Term → Term → Prop where
  | refl (t : Term) : Simplifies t t
  | trans {t u w : Term} : Simplifies t u → Simplifies u w → Simplifies t w
  | app {x x' y y' : Term} : Simplifies x x' → Simplifies y y' → Simplifies (.app x y) (.app x' y')
  | topApp (x : Term) : Simplifies (.app (.const .top) x) (.const .top)
  | botApp (x : Term) : Simplifies (.app (.const .bot) x) (.const .bot)
  | topJoin (x : Term) : Simplifies (.join (.const .top) x) (.const .top)
  | joinTop (x : Term) : Simplifies (.join x (.const .top)) (.const .top)
  | botJoin (x : Term) : Simplifies (.join (.const .bot) x) x
  | joinBot (x : Term) : Simplifies (.join x (.const .bot)) x
  | eta {n : String} {x : Term} : x.count n = 0 → Simplifies (.lambda (.var n) (.app x (.var n))) x
  | beta (n : String) (e a : Term) : Simplifies (.app (.lambda (.var n) e) a) (substitute n a e)

namespace Simplifies

theorem appAll {h h' : Term} (hh : Simplifies h h') (as : List Term) : Simplifies (h.appAll as) (h'.appAll as) :=
  rel_appAll .app .refl hh as

theorem top_appAll (as : List Term) : Simplifies ((Term.const .top).appAll as) (.const .top) := by
  induction as with
  | nil => exact .refl _
  | cons a as ih => exact .trans (.appAll (.topApp a) as) ih

theorem bot_appAll (as : List Term) : Simplifies ((Term.const .bot).appAll as) (.const .bot) := by
  induction as with
  | nil => exact .refl _
  | cons a as ih => exact .trans (.appAll (.botApp a) as) ih

end Simplifies

theorem simplifies_latticeStep? {h h' : Term} {as as' : List Term} (hs : latticeStep? h as = some (h', as')) :
    Simplifies (h.appAll as) (h'.appAll as') := by
  unfold latticeStep? at hs
  split at hs <;> cases hs
  · exact .top_appAll _
  · exact .bot_appAll _
  · exact .trans (.appAll (.topJoin _) _) (.top_appAll _)
  · exact .trans (.appAll (.joinTop _) _) (.top_appAll _)
  · exact .appAll (.botJoin _) _
  · exact .appAll (.joinBot _) _

theorem simplifies_headStep? {h h' : Term} {as as' : List Term} (hs : headStep? h as = some (h', as')) :
    Simplifies (h.appAll as) (h'.appAll as') := by
  obtain hl | ⟨x, he, hr⟩ | ⟨-, hb⟩ := headStep?_eq_some_iff.1 hs
  · exact simplifies_latticeStep? hl
  · obtain ⟨n, rfl, hn⟩ := etaStep?_eq_some_iff.1 he
    cases hr
    exact .appAll (.eta hn) as
  · obtain ⟨n, e, a, bs, rfl, rfl, -, hr⟩ := betaStep?_eq_some_iff.1 hb
    cases hr
    exact .appAll (.beta n e a) _

/-- Each rule of normalization is made of simplifications. -/
theorem Normalizes.simplifies {h r : Term} {as : List Term} (hr : Normalizes h as r) :
    Simplifies (h.appAll as) r := by
  induction hr with
  | app _ ih => exact ih
  | step hs _ ih => exact .trans (simplifies_headStep? hs) ih
  | @copy n m e y _ bs _ _ _ ihy ih =>
    have hbeta : Simplifies (.app (.lambda (.var n) e) y) (substitute n (.var m) e) :=
      .trans (.app (.refl _) ihy) (.beta n e (.var m))
    exact .trans (hbeta.appAll bs) ih
  | stuck _ _ _ ih => exact rel_appAll_map .app (.refl _) ih

theorem simplifies_normalize (t : Term) : Simplifies t t.normalize := (normalizes_normalize t).simplifies

/-! ### Convertibility -/

/-- Convertibility of well-formed terms. -/
inductive Conv : Term → Term → Prop where
  /-- Bound names may be changed. -/
  | alpha {t u : Term} : t.WellFormed → u.WellFormed → AlphaEq t u → Conv t u
  | symm {t u : Term} : Conv t u → Conv u t
  | trans {t u w : Term} : Conv t u → Conv u w → Conv t w
  /-- Applying an abstraction is substitution. -/
  | beta {n : String} {e a r : Term} : e.WellFormed → a.WellFormed → r.WellFormed →
    r.nameless [] = (e.nameless []).subst n (a.nameless []) → Conv (.app (.lambda (.var n) e) a) r
  /-- Abstracting an application is the function. -/
  | eta {n : String} {x : Term} : x.WellFormed → n ∉ x.freeOccurrences →
    Conv (.lambda (.var n) (.app x (.var n))) x
  | topApp {x : Term} : x.WellFormed → Conv (.app (.const .top) x) (.const .top)
  | botApp {x : Term} : x.WellFormed → Conv (.app (.const .bot) x) (.const .bot)
  | topJoin {x : Term} : x.WellFormed → Conv (.join (.const .top) x) (.const .top)
  | joinTop {x : Term} : x.WellFormed → Conv (.join x (.const .top)) (.const .top)
  | botJoin {x : Term} : x.WellFormed → Conv (.join (.const .bot) x) x
  | joinBot {x : Term} : x.WellFormed → Conv (.join x (.const .bot)) x
  | unary (u : Unary) {x x' : Term} : Conv x x' → Conv (.unary u x) (.unary u x')
  | binary (b : Binary) {x x' y y' : Term} : Conv x x' → Conv y y' → Conv (.binary b x y) (.binary b x' y')
  | lambda {p e e' : Term} : p.WellFormed → Conv e e' → Conv (.lambda p e) (.lambda p e')
  | letrec {p d d' e e' : Term} : p.WellFormed → Conv d d' → Conv e e' → Conv (.letrec p d e) (.letrec p d' e')

theorem Conv.wellFormed {t u : Term} (h : Conv t u) : t.WellFormed ∧ u.WellFormed := by
  induction h with
  | alpha ht hu _ => exact ⟨ht, hu⟩
  | symm _ ih => exact ih.symm
  | trans _ _ ih₁ ih₂ => exact ⟨ih₁.1, ih₂.2⟩
  | beta he ha hr _ => exact ⟨⟨⟨trivial, he⟩, ha⟩, hr⟩
  | eta hx _ => exact ⟨⟨trivial, hx, trivial⟩, hx⟩
  | topApp hx | botApp hx | topJoin hx => exact ⟨⟨trivial, hx⟩, trivial⟩
  | joinTop hx => exact ⟨⟨hx, trivial⟩, trivial⟩
  | botJoin hx => exact ⟨⟨trivial, hx⟩, hx⟩
  | joinBot hx => exact ⟨⟨hx, trivial⟩, hx⟩
  | unary _ _ ih => exact ih
  | binary _ _ _ ihx ihy => exact ⟨⟨ihx.1, ihy.1⟩, ihx.2, ihy.2⟩
  | lambda hp _ ihe => exact ⟨⟨hp, ihe.1⟩, hp, ihe.2⟩
  | letrec hp _ _ ihd ihe => exact ⟨⟨hp, ihd.1, ihe.1⟩, hp, ihd.2, ihe.2⟩

theorem Conv.refl {t : Term} (ht : t.WellFormed) : Conv t t := .alpha ht ht rfl

/-! ### What simplification keeps -/

/-- A property that the parts of a term have with it, and that substitution keeps. -/
structure Hereditary (P : Term → Prop) : Prop where
  /-- An application has it if and only if both sides have it. -/
  app : ∀ {x y : Term}, P (.app x y) ↔ P x ∧ P y
  /-- The sides of a join have it. -/
  join : ∀ {x y : Term}, P (.join x y) → P x ∧ P y
  /-- The body of an abstraction has it. -/
  body : ∀ {n : String} {e : Term}, P (.lambda (.var n) e) → P e
  /-- What an abstraction gives for an argument has it. -/
  beta : ∀ {n : String} {e a : Term}, P (.lambda (.var n) e) → P a → P (substitute n a e)

/-- For a property of tidy terms it is enough that substitution keeps it in tidy bodies. -/
theorem Hereditary.ofTidy {P : Term → Prop} (happ : ∀ {x y : Term}, P (.app x y) ↔ P x ∧ P y)
    (hjoin : ∀ {x y : Term}, P (.join x y) → P x ∧ P y)
    (hbody : ∀ {n : String} {e : Term}, P (.lambda (.var n) e) → P e)
    (hsubst : ∀ {n : String} {e a : Term}, e.Tidy → P (.lambda (.var n) e) → P a → P (substitute n a e)) :
    Hereditary fun t => t.Tidy ∧ P t where
  app := by
    intro x y
    rw [tidy_binary, happ]
    exact and_and_and_comm
  join h := and_and_and_comm.1 ⟨tidy_binary.1 h.1, hjoin h.2⟩
  body h := ⟨(tidy_lambda.1 h.1).2, hbody h.2⟩
  beta he ha :=
    have ht := (tidy_lambda.1 he.1).2
    ⟨tidy_substitute ha.1 ht, hsubst ht he.2 ha.2⟩

namespace Simplifies

/-- **Simplification keeps what is hereditary.** -/
theorem keeps {P : Term → Prop} (hP : Hereditary P) {t u : Term} (h : Simplifies t u) (ht : P t) : P u := by
  induction h with
  | refl => exact ht
  | trans _ _ ih₁ ih₂ => exact ih₂ (ih₁ ht)
  | app _ _ ihx ihy =>
    rw [hP.app] at ht ⊢
    exact ⟨ihx ht.1, ihy ht.2⟩
  | topApp | botApp => exact (hP.app.1 ht).1
  | topJoin | joinBot => exact (hP.join ht).1
  | joinTop | botJoin => exact (hP.join ht).2
  | eta _ => exact (hP.app.1 (hP.body ht)).1
  | beta n e a => exact hP.beta (hP.app.1 ht).1 (hP.app.1 ht).2

theorem wellFormed {t u : Term} (h : Simplifies t u) (ht : t.WellFormed) : u.WellFormed :=
  h.keeps ⟨Iff.rfl, id, And.right, fun he ha => wellFormed_substitute ha he.2⟩ ht

theorem tidy {t u : Term} (h : Simplifies t u) (ht : t.Tidy) : u.Tidy := by
  have hkeeps : Hereditary Tidy := ⟨tidy_binary, tidy_binary.1, fun h => (tidy_lambda.1 h).2,
    fun he ha => tidy_substitute ha (tidy_lambda.1 he).2⟩
  exact h.keeps hkeeps ht

theorem conv {t u : Term} (h : Simplifies t u) (ht : t.Tidy) : Conv t u := by
  induction h with
  | refl => exact .refl ht.1
  | trans h₁ _ ih₁ ih₂ => exact .trans (ih₁ ht) (ih₂ (h₁.tidy ht))
  | app _ _ ihx ihy =>
    rw [tidy_binary] at ht
    exact .binary .app (ihx ht.1) (ihy ht.2)
  | topApp => exact .topApp ht.1.2
  | botApp => exact .botApp ht.1.2
  | topJoin => exact .topJoin ht.1.2
  | joinTop => exact .joinTop ht.1.1
  | botJoin => exact .botJoin ht.1.2
  | joinBot => exact .joinBot ht.1.1
  | eta hn => exact .eta ht.1.2.1 (count_eq_zero_iff.1 hn)
  | beta n e a =>
    rw [tidy_binary, tidy_lambda] at ht
    exact .beta ht.1.2.1 ht.2.1 (tidy_substitute ht.2 ht.1.2).1 (nameless_substitute_nil ht.1.2)

theorem mem_freeOccurrences {t u : Term} (h : Simplifies t u) (ht : t.Tidy) {n : String}
    (hn : n ∈ u.freeOccurrences) : n ∈ t.freeOccurrences := by
  induction h with
  | refl => exact hn
  | trans h₁ _ ih₁ ih₂ => exact ih₁ ht (ih₂ (h₁.tidy ht) hn)
  | app _ _ ihx ihy =>
    rw [tidy_binary] at ht
    rw [mem_freeOccurrences_binary] at hn ⊢
    exact hn.imp (ihx ht.1) (ihy ht.2)
  | topApp | botApp | topJoin | joinTop => cases hn
  | botJoin => exact mem_freeOccurrences_binary.2 (.inr hn)
  | joinBot => exact mem_freeOccurrences_binary.2 (.inl hn)
  | eta hm =>
    rw [mem_freeOccurrences_lambda_var, mem_freeOccurrences_binary]
    exact ⟨.inl hn, fun e => count_eq_zero_iff.1 hm (e ▸ hn)⟩
  | beta m e a =>
    rw [tidy_binary, tidy_lambda] at ht
    rw [mem_freeOccurrences_binary, mem_freeOccurrences_lambda_var]
    exact (mem_freeOccurrences_substitute ht.1.2 hn).symm

end Simplifies

/-- **Normalization preserves meaning and scope**: the normal form is convertible to the term, and its free
variables are among those of the term. -/
theorem conv_normalize {t : Term} (hw : t.WellFormed) (hb : t.SimpleBinders) :
    Conv t t.normalize ∧ ∀ n ∈ t.normalize.freeNames, n ∈ t.freeNames := by
  have hs := simplifies_normalize t
  refine ⟨hs.conv ⟨hw, hb⟩, fun n hn => ?_⟩
  rw [mem_freeNames] at hn ⊢
  exact hs.mem_freeOccurrences ⟨hw, hb⟩ hn

/-- The argument `y` of `(LAMBDA x. LAMBDA y. x (y y)) y` is not captured. -/
theorem conv_normalize_capture :
    Conv
      (app (.lambda (.var "x") (.lambda (.var "y") (app (.var "x") (app (.var "y") (.var "y"))))) (.var "y"))
      (.lambda (.var "a") (app (.var "y") (app (.var "a") (.var "a")))) := by
  have h := (conv_normalize (t := app
    (.lambda (.var "x") (.lambda (.var "y") (app (.var "x") (app (.var "y") (.var "y"))))) (.var "y"))
    (by simp [WellFormed]) (by simp [SimpleBinders, BinderFree])).1
  have hn : (app (.lambda (.var "x") (.lambda (.var "y") (app (.var "x") (app (.var "y") (.var "y")))))
    (.var "y")).normalize = .lambda (.var "a") (app (.var "y") (app (.var "a") (.var "a"))) := by decide +kernel
  rwa [hn] at h

/-- **Normalization computes the normal forms**: what it gives is well formed and normal, and it leaves exactly the
normal terms as they are. A term is normal if nothing can be done at the head of its spine and its arguments are
normal. -/
theorem normalize_normal_iff {t : Term} (ht : t.WellFormed) :
    t.normalize.WellFormed ∧ t.normalize.Normal ∧ (t.normalize = t ↔ t.Normal) ∧
      ∀ h as, (∀ x y, h ≠ .app x y) → t = h.appAll as → (t.Normal ↔ Stuck h as ∧ ∀ a ∈ as, a.Normal) := by
  refine ⟨(simplifies_normalize t).wellFormed ht, normal_normalize t, normalize_eq_self_iff, ?_⟩
  intro h as hh e
  rw [e]
  exact normal_appAll_iff hh

/-- In `(LAMBDA x. x x) ((LAMBDA z. z) y) (TOP w)` the first argument becomes a variable, and is copied; the second one
meets the new head, and is normalized there. -/
theorem normalize_normal_iff_copy :
    (appAll (.var "y") [.var "y", .const .top]).Normal ∧
      ¬(appAll (.lambda (.var "x") (app (.var "x") (.var "x")))
        [app (.lambda (.var "z") (.var "z")) (.var "y"), app (.const .top) (.var "w")]).Normal := by
  have hn : (appAll (.lambda (.var "x") (app (.var "x") (.var "x")))
      [app (.lambda (.var "z") (.var "z")) (.var "y"), app (.const .top) (.var "w")]).normalize =
        appAll (.var "y") [.var "y", .const .top] := by decide +kernel
  obtain ⟨-, hnormal, hself, -⟩ := normalize_normal_iff
    (t := appAll (.lambda (.var "x") (app (.var "x") (.var "x")))
      [app (.lambda (.var "z") (.var "z")) (.var "y"), app (.const .top) (.var "w")]) (by simp [WellFormed])
  rw [hn] at hnormal hself
  exact ⟨hnormal, fun h => absurd (hself.2 h) (by decide)⟩

end Combinatory.Term
