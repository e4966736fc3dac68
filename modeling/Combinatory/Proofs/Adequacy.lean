import Combinatory.Proofs.HeadReduction

/-!
# Adequacy of meanings

What the meaning of a term tells about head reduction is true: if the value of a term says that it is the
observed variable, then the term reduces to that variable. With soundness, which is the other direction, two
terms can be compared by their meanings.

## The model

`Info.Holds` says of a piece of information that it is true of a form. That it is the observed variable is true
of a form if all tidy terms of that form reduce to the variable; that it maps `M` to `τ` is true if applying the
form to anything of which all of `M` is true gives something of which `τ` is. A form `Realizes` a value if all
that is known about the value is true of the form.

A head contraction may be undone (`Realizes.contract`), so each head realizes its meaning as soon as there are
laws for it. `realizes_meaning` puts these facts together along a term whose variables are replaced by forms
that realize their values.
-/

namespace Combinatory

open Value Info Nameless Term

/-! ### Truth of information -/

/-- A piece of information is true of a form. -/
def Info.Holds (R : Term → Term → Prop) (f : String) : Info → Nameless → Prop
  | .observed, s => ∀ t : Term, t.Tidy → t.nameless [] = s → Reduces R t (.var f)
  | .maps M τ, s => ∀ a : Nameless, a.Closed → (∀ i, (M i).Holds R f a) → τ.Holds R f (.binary .app s a)

/-- All that is known about a value is true of a form. -/
def Realizes (R : Term → Term → Prop) (f : String) (s : Nameless) (x : Value) : Prop :=
  ∀ τ ∈ x, τ.Holds R f s

section

variable {R : Term → Term → Prop} {f : String} {s : Nameless} {x : Value}

theorem Info.Holds.of_le {τ υ : Info} (hle : τ ≤ υ) (h : υ.Holds R f s) : τ.Holds R f s := by
  induction hle generalizing s with
  | observed => exact h
  | maps g _ _ ihM ihτ =>
    intro a ha hM
    exact ihτ (h a ha fun i => ihM i (hM (g i)))

/-- What is true after a contraction was true before. -/
theorem Info.Holds.contract {τ : Info}
    (h : ∀ t : Term, t.Tidy → t.nameless [] = s → ∃ u, HeadStep R t u ∧ u.Tidy ∧ τ.Holds R f (u.nameless [])) :
    τ.Holds R f s := by
  induction τ generalizing s with
  | observed =>
    intro t ht hs
    obtain ⟨u, hstep, hu, hobs⟩ := h t ht hs
    exact .head hstep (hobs u hu rfl)
  | maps M τ _ ih =>
    intro a ha hM
    refine ih fun t ht hs => ?_
    obtain ⟨x, y, rfl, hx, rfl⟩ := nameless_eq_binary.1 hs
    rw [tidy_binary] at ht
    obtain ⟨u, hstep, hu, hmaps⟩ := h x ht.1 hx
    exact ⟨.app u y, .app y hstep, tidy_binary.2 ⟨hu, ht.2⟩, hmaps _ ha hM⟩

namespace Realizes

theorem bot : Realizes R f s ⊥ := fun _ h => h.elim

theorem contract (h : ∀ t : Term, t.Tidy → t.nameless [] = s →
    ∃ u, R t u ∧ u.Tidy ∧ Realizes R f (u.nameless []) x) : Realizes R f s x := by
  intro τ hτ
  refine Holds.contract fun t ht hs => ?_
  obtain ⟨u, hr, hu, hx⟩ := h t ht hs
  exact ⟨u, .contract hr, hu, hx τ hτ⟩

theorem app {a : Nameless} {y : Value} (hs : Realizes R f s x) (ha : Realizes R f a y) (hc : a.Closed) :
    Realizes R f (.binary .app s a) (Value.app x y) := by
  rintro τ ⟨k, M, hM, hy⟩
  exact hs _ hM a hc fun i => ha _ (hy i)

theorem lam {F : Value → Value}
    (h : ∀ a x, a.Closed → Realizes R f a x → Realizes R f (.binary .app s a) (F x)) :
    Realizes R f s (lam F) := by
  rintro _ ⟨k, M, τ, rfl, x, hx, hτ⟩ a ha hM
  refine h a x ha (fun υ hυ => ?_) τ hτ
  obtain ⟨_, ⟨i, rfl⟩, hle⟩ := mem_lowerClosure.1 (hx hυ)
  exact (hM i).of_le hle

theorem fix {F : Value → Value} (h : ∀ x, Realizes R f s x → Realizes R f s (F x)) :
    Realizes R f s (fix F) := by
  intro τ hτ
  induction hτ with
  | intro M _ hτ ih =>
    refine h _ (fun υ hυ => ?_) _ hτ
    obtain ⟨_, ⟨i, rfl⟩, hle⟩ := mem_lowerClosure.1 hυ
    exact (ih i).of_le hle

/-- A variable realizes what is known about it when `f` is observed. -/
theorem observing (n : String) : Realizes R f (.free n) (observing f n) := by
  intro τ hτ
  by_cases hn : n = f
  · subst hn
    rw [Combinatory.observing, Function.update_self] at hτ
    obtain ⟨_, rfl, hle⟩ := mem_lowerClosure.1 hτ
    cases hle
    intro t _ ht
    rw [nameless_nil_eq_free.1 ht]
    exact .refl
  · rw [Combinatory.observing, Function.update_of_ne hn] at hτ
    exact hτ.elim

end Realizes

/-! ### Combinators -/

theorem closed_app {a b : Nameless} (ha : a.Closed) (hb : b.Closed) : (Nameless.binary .app a b).Closed := by
  intro k c
  rw [instantiate, ha k c, hb k c]

/-- The laws for the combinators let each realize its meaning. -/
theorem realizes_const (hR : CombinatorLaw ≤ R) {yv : Value} {o : Const} (ho : o ≠ .y) :
    Realizes R f (.const o) (o.meaning yv) := by
  cases o with
  | i =>
    refine .lam fun a x ha hx => .contract fun t ht hs => ?_
    simp only [nameless_eq_binary, nameless_eq_const] at hs
    obtain ⟨_, u, rfl, rfl, rfl⟩ := hs
    exact ⟨u, hR _ _ (.i u), by simp_all, hx⟩
  | k =>
    refine .lam fun a x ha hx => .lam fun b y hb hy => .contract fun t ht hs => ?_
    simp only [nameless_eq_binary, nameless_eq_const] at hs
    obtain ⟨_, v, rfl, ⟨_, u, rfl, rfl, rfl⟩, rfl⟩ := hs
    exact ⟨u, hR _ _ (.k u v), by simp_all, hx⟩
  | b =>
    refine .lam fun a x ha hx => .lam fun b y hb hy => .lam fun c z hc hz => .contract fun t ht hs => ?_
    simp only [nameless_eq_binary, nameless_eq_const] at hs
    obtain ⟨_, w, rfl, ⟨_, v, rfl, ⟨_, u, rfl, rfl, rfl⟩, rfl⟩, rfl⟩ := hs
    exact ⟨_, hR _ _ (.b u v w), by simp_all, hx.app (hy.app hz hc) (closed_app hb hc)⟩
  | c =>
    refine .lam fun a x ha hx => .lam fun b y hb hy => .lam fun c z hc hz => .contract fun t ht hs => ?_
    simp only [nameless_eq_binary, nameless_eq_const] at hs
    obtain ⟨_, w, rfl, ⟨_, v, rfl, ⟨_, u, rfl, rfl, rfl⟩, rfl⟩, rfl⟩ := hs
    exact ⟨_, hR _ _ (.c u v w), by simp_all, (hx.app hz hc).app hy hb⟩
  | ci =>
    refine .lam fun a x ha hx => .lam fun b y hb hy => .contract fun t ht hs => ?_
    simp only [nameless_eq_binary, nameless_eq_const] at hs
    obtain ⟨_, v, rfl, ⟨_, u, rfl, rfl, rfl⟩, rfl⟩ := hs
    exact ⟨_, hR _ _ (.ci u v), by simp_all, hy.app hx ha⟩
  | cb =>
    refine .lam fun a x ha hx => .lam fun b y hb hy => .lam fun c z hc hz => .contract fun t ht hs => ?_
    simp only [nameless_eq_binary, nameless_eq_const] at hs
    obtain ⟨_, w, rfl, ⟨_, v, rfl, ⟨_, u, rfl, rfl, rfl⟩, rfl⟩, rfl⟩ := hs
    exact ⟨_, hR _ _ (.cb u v w), by simp_all, hy.app (hx.app hz hc) (closed_app ha hc)⟩
  | w =>
    refine .lam fun a x ha hx => .lam fun b y hb hy => .contract fun t ht hs => ?_
    simp only [nameless_eq_binary, nameless_eq_const] at hs
    obtain ⟨_, v, rfl, ⟨_, u, rfl, rfl, rfl⟩, rfl⟩ := hs
    exact ⟨_, hR _ _ (.w u v), by simp_all, (hx.app hy hb).app hy hb⟩
  | s =>
    refine .lam fun a x ha hx => .lam fun b y hb hy => .lam fun c z hc hz => .contract fun t ht hs => ?_
    simp only [nameless_eq_binary, nameless_eq_const] at hs
    obtain ⟨_, w, rfl, ⟨_, v, rfl, ⟨_, u, rfl, rfl, rfl⟩, rfl⟩, rfl⟩ := hs
    exact ⟨_, hR _ _ (.s u v w), by simp_all, (hx.app hz hc).app (hy.app hz hc) (closed_app hb hc)⟩
  | y => exact absurd rfl ho
  | _ => exact .bot

/-- The law of `Y` lets it realize the fixed point. -/
theorem realizes_y (hR : FixpointLaw ≤ R) : Realizes R f (.const .y) fixpointValue := by
  refine .lam fun a x ha hx => .fix fun y hy => .contract fun t ht hs => ?_
  simp only [nameless_eq_binary, nameless_eq_const] at hs
  obtain ⟨_, u, rfl, rfl, rfl⟩ := hs
  exact ⟨_, hR _ _ (.y u), by simp_all, hx.app hy (closed_app (closed_const _) ha)⟩

/-- The law of a delayed `Y` lets it realize the delayed fixed point. -/
theorem realizes_delayed_y (hR : DelayedFixpointLaw ≤ R) : Realizes R f (.const .y) delayedFixpointValue := by
  refine .lam fun a x ha hx => .fix fun y hy => .lam fun b z hb hz => .contract fun t ht hs => ?_
  simp only [nameless_eq_binary, nameless_eq_const] at hs
  obtain ⟨_, v, rfl, ⟨_, u, rfl, rfl, rfl⟩, rfl⟩ := hs
  exact ⟨_, hR _ _ (.y u v), by simp_all,
    hx.app (hy.app hz hb) (closed_app (closed_app (closed_const _) ha) hb)⟩

theorem Realizes.comp (hR : CombinatorLaw ≤ R) {r : Nameless} {y : Value} (hs : Realizes R f s x)
    (hr : Realizes R f r y) (hc : r.Closed) :
    Realizes R f (.binary .comp s r) (Value.lam fun z => Value.app x (Value.app y z)) := by
  refine .lam fun c z hc hz => .contract fun t ht hst => ?_
  simp only [nameless_eq_binary] at hst
  obtain ⟨_, w, rfl, ⟨u, v, rfl, rfl, rfl⟩, rfl⟩ := hst
  exact ⟨_, hR _ _ (.comp u v w), by simp_all, hs.app (hr.app hz hc) (closed_app ‹_› hc)⟩

/-- The laws carry out all combinators, `Y` with the meaning `yv`. -/
structure Complete (R : Term → Term → Prop) (f : String) (yv : Value) : Prop where
  /-- The combinators other than `Y`, and composition. -/
  combinators : CombinatorLaw ≤ R
  /-- `Y`. -/
  fixpoint : Realizes R f (.const .y) yv

theorem Complete.const {yv : Value} (h : Complete R f yv) (o : Const) :
    Realizes R f (.const o) (o.meaning yv) := by
  by_cases ho : o = .y
  · subst ho; exact h.fixpoint
  · exact realizes_const h.combinators ho

/-! ### Binders -/

theorem Realizes.beta (hR : BinderLaw ≤ R) {a : Nameless} (h : Realizes R f (s.instantiate 0 a) x) :
    Realizes R f (.binary .app (.lambda 1 (.bound 0) s) a) x := by
  refine .contract fun t ht hs => ?_
  obtain ⟨u, v, rfl, hu, rfl⟩ := nameless_eq_binary.1 hs
  obtain ⟨n, e, rfl, rfl⟩ := nameless_eq_lambda hu
  refine ⟨_, hR _ _ (.beta n e v), (BinderLaw.beta n e v).tidy ht, ?_⟩
  simp only [tidy_binary, tidy_lambda] at ht
  rwa [nameless_substitute_nil ht.1.2, ← instantiate_nameless_singleton]

theorem Realizes.unfold (hR : BinderLaw ≤ R) {r : Nameless}
    (h : Realizes R f (s.instantiate 0 (r.instantiate 0 (.letrec 1 (.bound 0) r (.bound 0)))) x) :
    Realizes R f (.letrec 1 (.bound 0) r s) x := by
  refine .contract fun t ht hs => ?_
  obtain ⟨n, d, e, rfl, rfl, rfl⟩ := nameless_eq_letrec hs
  refine ⟨_, hR _ _ (.unfold n d e), (BinderLaw.unfold n d e).tidy ht, ?_⟩
  simp only [tidy_letrec] at ht
  rw [nameless_substitute_nil ht.2.2, nameless_substitute_nil ht.2.1, ← instantiate_nameless_singleton,
    ← instantiate_nameless_singleton]
  simpa [nameless, binders, payloads] using h

/-- A recursive definition realizes the fixed point: each unfolding puts the definition, with a variable that
is to be unfolded again, for the variable. -/
theorem Realizes.letrec (hR : BinderLaw ≤ R) {r : Nameless} {F : Value → Value} (hF : Finitary F)
    (hknot : (Nameless.letrec 1 (.bound 0) r (.bound 0)).Closed)
    (hclosed : ∀ a : Nameless, a.Closed → (r.instantiate 0 a).Closed)
    (hr : ∀ a y, a.Closed → Realizes R f a y → Realizes R f (r.instantiate 0 a) (F y))
    (hs : ∀ a, a.Closed → Realizes R f a (Value.fix F) → Realizes R f (s.instantiate 0 a) x) :
    Realizes R f (.letrec 1 (.bound 0) r s) x := by
  have hfix : Realizes R f (.letrec 1 (.bound 0) r (.bound 0)) (Value.fix F) :=
    .fix fun y hy => .unfold hR (hr _ y hknot hy)
  refine .unfold hR (hs _ (hclosed _ hknot) ?_)
  rw [← fix_eq hF]
  exact hr _ _ hknot hfix

end

/-! ### Terms -/

namespace Term

/-- Variables, applications and binders of a single variable: the terms that the laws of the binders run. -/
def LambdaTerm : Term → Prop
  | .var _ => True
  | .app x y => x.LambdaTerm ∧ y.LambdaTerm
  | .lambda (.var _) e => e.LambdaTerm
  | .letrec (.var _) d e => d.LambdaTerm ∧ e.LambdaTerm
  | _ => False

@[elab_as_elim]
theorem LambdaTerm.induction {motive : (t : Term) → t.LambdaTerm → Prop} (var : ∀ n : String, motive (.var n) trivial)
    (app : ∀ {x y : Term} (hx : x.LambdaTerm) (hy : y.LambdaTerm), motive x hx → motive y hy →
      motive (.app x y) ⟨hx, hy⟩)
    (lambda : ∀ (n : String) {e : Term} (he : e.LambdaTerm), motive e he → motive (.lambda (.var n) e) he)
    (letrec : ∀ (n : String) {d e : Term} (hd : d.LambdaTerm) (he : e.LambdaTerm), motive d hd → motive e he →
      motive (.letrec (.var n) d e) ⟨hd, he⟩)
    {t : Term} (ht : t.LambdaTerm) : motive t ht := by
  induction t with
  | var n => exact var n
  | binary b x y ihx ihy =>
    cases b with
    | app => exact app ht.1 ht.2 (ihx ht.1) (ihy ht.2)
    | comp | join | rand | define | stack | less | nless | equal => exact ht.elim
  | lambda p e _ ihe =>
    cases p with
    | var n => exact lambda n (e := e) ht (ihe ht)
    | name _ | const _ | unary _ _ | binary _ _ _ | lambda _ _ | letrec _ _ _ => exact ht.elim
  | letrec p d e _ ihd ihe =>
    cases p with
    | var n => exact letrec n ht.1 ht.2 (ihd ht.1) (ihe ht.2)
    | name _ | const _ | unary _ _ | binary _ _ _ | lambda _ _ | letrec _ _ _ => exact ht.elim
  | name _ | const _ | unary _ _ => exact ht.elim

theorem meaning_lambda_of_forall_ne {yv : Value} {ρ : String → Value} {p : Term} (h : ∀ n, p ≠ .var n)
    (e : Term) : (lambda p e).meaning yv ρ = ⊥ := by
  refine if_neg fun hp => ?_
  obtain ⟨n, rfl⟩ := nameless_eq_bound hp.2
  exact h n rfl

theorem meaning_letrec_of_forall_ne {yv : Value} {ρ : String → Value} {p : Term} (h : ∀ n, p ≠ .var n)
    (d e : Term) : (letrec p d e).meaning yv ρ = ⊥ := by
  refine if_neg fun hp => ?_
  obtain ⟨n, rfl⟩ := nameless_eq_bound hp.2
  exact h n rfl

end Term

section

variable {R : Term → Term → Prop} {f : String} {yv : Value}

theorem Realizes.update {σ : String → Nameless} {ρ : String → Value} (h : ∀ n, Realizes R f (σ n) (ρ n))
    (n : String) {a : Nameless} {x : Value} (ha : Realizes R f a x) (m : String) :
    Realizes R f (Function.update σ n a m) (Function.update ρ n x m) := by
  by_cases hm : m = n
  · subst hm
    rwa [Function.update_self, Function.update_self]
  · rw [Function.update_of_ne hm, Function.update_of_ne hm]
    exact h m

/-- A term whose variables are replaced by forms that realize their values realizes its meaning, if there are
laws for all that it is made of. -/
theorem realizes_meaning {t : Term} (hb : t.BinderFree ∨ BinderLaw ≤ R) (ht : t.LambdaTerm ∨ Complete R f yv)
    {σ : String → Nameless} {ρ : String → Value} (hσ : ∀ n, (σ n).Closed)
    (h : ∀ n, Realizes R f (σ n) (ρ n)) :
    Realizes R f ((t.nameless []).substAll σ) (t.meaning yv ρ) := by
  induction t generalizing σ ρ with
  | name _ | unary _ _ => exact .bot
  | const o =>
    rcases ht with ht | ht
    · exact ht.elim
    · exact ht.const o
  | var n =>
    rw [meaning_var]
    simpa [nameless, substAll] using h n
  | binary b x y ihx ihy =>
    cases b with
    | app =>
      exact (ihx (hb.imp_left And.left) (ht.imp_left And.left) hσ h).app
        (ihy (hb.imp_left And.right) (ht.imp_left And.right) hσ h) (closed_substAll_nameless hσ y)
    | comp =>
      rcases ht with ht | ht
      · exact ht.elim
      · exact (ihx (hb.imp_left And.left) (.inr ht) hσ h).comp ht.combinators
          (ihy (hb.imp_left And.right) (.inr ht) hσ h) (closed_substAll_nameless hσ y)
    | join | rand | define | stack | less | nless | equal => exact .bot
  | lambda p e _ ihe =>
    have hR : BinderLaw ≤ R := hb.resolve_left id
    by_cases hp : ∃ n, p = .var n
    · obtain ⟨n, rfl⟩ := hp
      rw [meaning_lambda, nameless_lambda_var, substAll]
      refine .lam fun a x ha hx => .beta hR ?_
      rw [instantiate_substAll_nameless_singleton hσ]
      exact ihe (.inr hR) ht (closed_update hσ ha) (Realizes.update h n hx)
    · rw [meaning_lambda_of_forall_ne (not_exists.1 hp)]
      exact .bot
  | letrec p d e _ ihd ihe =>
    have hR : BinderLaw ≤ R := hb.resolve_left id
    by_cases hp : ∃ n, p = .var n
    · obtain ⟨n, rfl⟩ := hp
      have hknot := closed_substAll_nameless hσ (letrec (.var n) d (.var n))
      rw [nameless_letrec_var, substAll, nameless_var, resolve_cons_self, substAll] at hknot
      rw [meaning_letrec, nameless_letrec_var, substAll]
      have hF : Finitary fun x => d.meaning yv (Function.update ρ n x) := d.finitary_meaning n
      refine .letrec hR hF hknot (fun a ha => ?_) (fun a x ha hx => ?_) fun a ha hx => ?_
      · rw [instantiate_substAll_nameless_singleton hσ]
        exact closed_substAll_nameless (closed_update hσ ha) d
      · rw [instantiate_substAll_nameless_singleton hσ]
        exact ihd (.inr hR) (ht.imp_left And.left) (closed_update hσ ha) (Realizes.update h n hx)
      · rw [instantiate_substAll_nameless_singleton hσ]
        exact ihe (.inr hR) (ht.imp_left And.right) (closed_update hσ ha) (Realizes.update h n hx)
    · rw [meaning_letrec_of_forall_ne (not_exists.1 hp)]
      exact .bot

/-- **Adequacy**: a term about whose value it is known that it is the observed variable reduces to it. -/
theorem reduces_of_observed_mem_meaning {t : Term} (hb : t.BinderFree ∨ BinderLaw ≤ R)
    (hlaws : t.LambdaTerm ∨ Complete R f yv) (ht : t.Tidy) (h : .observed ∈ t.meaning yv (observing f)) :
    Reduces R t (.var f) := by
  have hreal := realizes_meaning hb hlaws closed_free Realizes.observing
  rw [substAll_free] at hreal
  exact hreal _ h t ht rfl

end

end Combinatory
