import Combinatory.NormalForm
import Mathlib.Data.List.Induction
import Mathlib.Tactic.Common

/-!
# Normal forms

What normalization leaves is normal: no rule applies to the head of the term or to the head of an argument. A normal
term is its own normal form.

## The model

`Term.Stuck h as` says, rule by rule, that nothing can be done at the head of `h` applied to `as`. A term is
`Term.Normal` if its spine is stuck and the arguments are normal; what stands below a head other than application
does not matter.

`Term.Normalizes h as r` gives the rules by which `h` applied to `as` is normalized to `r`. The normalizer goes by
them (`normalizes_normalizeSpine`), so a property of normal forms is proved by induction on the rules.

## What is proved

* `normal_normalize`: the normal form of a term is normal.
* `normalize_eq_self_iff`: the terms that are not changed are the normal ones.
-/

namespace Combinatory.Term

/-! ### Steps -/

theorem isVar_eq_false_iff {t : Term} : t.isVar = false ↔ ∀ m, t ≠ .var m := by
  cases t <;> simp [isVar, varName?]

theorem isVar_eq_true_iff {t : Term} : t.isVar = true ↔ ∃ m, t = .var m := by
  cases t <;> simp [isVar, varName?]

theorem latticeStep?_const (o : Const) (a : Term) (as : List Term) : latticeStep? (.const o) (a :: as) =
    if o = .top ∨ o = .bot then some (.const o, []) else none := by
  unfold latticeStep?
  split <;> simp_all

theorem latticeStep?_join (x y : Term) (as : List Term) : latticeStep? (.join x y) as =
    if x = .const .top ∨ y = .const .top then some (.const .top, [])
    else if x = .const .bot then some (y, as)
    else if y = .const .bot then some (x, as)
    else none := by
  unfold latticeStep?
  split <;> simp_all

theorem etaStep?_eq_some_iff {h x : Term} :
    etaStep? h = some x ↔ ∃ n, h = .lambda (.var n) (.app x (.var n)) ∧ x.count n = 0 := by
  constructor
  · intro hs
    unfold etaStep? at hs
    split at hs
    · next n x' m =>
      split at hs
      · next hn =>
        obtain ⟨rfl, hn⟩ := hn
        cases hs
        exact ⟨m, rfl, hn⟩
      · cases hs
    · cases hs
  · rintro ⟨n, rfl, hn⟩
    simp [etaStep?, hn]

theorem betaStep?_eq_some_iff {h : Term} {as : List Term} {r : Term × List Term} :
    betaStep? h as = some r ↔ ∃ n e a bs, h = .lambda (.var n) e ∧ as = a :: bs ∧
      (a.isVar = true ∨ e.count n ≤ 1) ∧ r = (substitute n a e, bs) := by
  constructor
  · intro hs
    unfold betaStep? at hs
    split at hs
    · next n e m bs =>
      cases hs
      exact ⟨n, e, _, bs, rfl, rfl, .inl rfl, rfl⟩
    · next n e y bs _ =>
      split at hs
      · next hc =>
        cases hs
        exact ⟨n, e, y, bs, rfl, rfl, .inr hc, rfl⟩
      · cases hs
    · cases hs
  · rintro ⟨n, e, a, bs, rfl, rfl, hc, rfl⟩
    cases a <;> simp_all [betaStep?, isVar, varName?]

/-- The laws of the lattice are not about abstractions. -/
theorem headStep?_eq_some_iff {h : Term} {as : List Term} {r : Term × List Term} :
    headStep? h as = some r ↔ latticeStep? h as = some r ∨ (∃ x, etaStep? h = some x ∧ r = (x, as)) ∨
      (etaStep? h = none ∧ betaStep? h as = some r) := by
  cases h with
  | lambda p e =>
    have hl : latticeStep? (.lambda p e) as = none := rfl
    cases he : etaStep? (.lambda p e) <;> simp [headStep?, hl, he, eq_comm]
  | name _ | const _ | var _ | unary _ _ | binary _ _ _ | letrec _ _ _ => simp [headStep?, etaStep?, betaStep?]

theorem headStep?_eq_none_iff {h : Term} {as : List Term} :
    headStep? h as = none ↔ latticeStep? h as = none ∧ etaStep? h = none ∧ betaStep? h as = none := by
  cases hl : latticeStep? h as <;> cases he : etaStep? h <;> simp [headStep?, hl, he]

/-! ### Stuck spines -/

/-- Nothing can be done at the head of `h` applied to `as`. -/
structure Stuck (h : Term) (as : List Term) : Prop where
  /-- The head is no application. -/
  not_app : ∀ x y, h ≠ .app x y
  /-- `TOP` and `BOT` have no arguments. -/
  bound : ∀ o, o = .top ∨ o = .bot → h = .const o → as = []
  /-- `TOP` and `BOT` are no side of a join. -/
  join : ∀ x y, h = .join x y → ∀ o, o = .top ∨ o = .bot → x ≠ .const o ∧ y ≠ .const o
  /-- The head is no η-redex. -/
  eta : ∀ n x, h = .lambda (.var n) (.app x (.var n)) → x.count n ≠ 0
  /-- A first argument is no variable, and is used more than once. -/
  beta : ∀ n e a bs, h = .lambda (.var n) e → as = a :: bs → a.isVar = false ∧ 2 ≤ e.count n

theorem latticeStep?_eq_none_iff {h : Term} {as : List Term} : latticeStep? h as = none ↔
    (∀ o, o = .top ∨ o = .bot → h = .const o → as = []) ∧
      ∀ x y, h = .join x y → ∀ o, o = .top ∨ o = .bot → x ≠ .const o ∧ y ≠ .const o := by
  cases h with
  | const o =>
    cases as with
    | nil => simp [latticeStep?]
    | cons a as => simp [latticeStep?_const]
  | binary b x y =>
    cases b with
    | join =>
      rw [latticeStep?_join]
      split_ifs with htop hx hy
      · rcases htop with rfl | rfl <;> simp
      · simp [hx]
      · simp [hy]
      · simp_all
    | app | comp | rand | define | stack | less | nless | equal => simp [latticeStep?]
  | name _ | var _ | unary _ _ | lambda _ _ | letrec _ _ _ => simp [latticeStep?]

theorem stuck_iff {h : Term} {as : List Term} : Stuck h as ↔ (∀ x y, h ≠ .app x y) ∧ headStep? h as = none := by
  rw [headStep?_eq_none_iff, latticeStep?_eq_none_iff]
  constructor
  · intro hs
    refine ⟨hs.not_app, ⟨hs.bound, hs.join⟩, ?_, ?_⟩
    · by_contra he
      obtain ⟨x, hx⟩ := Option.ne_none_iff_exists'.1 he
      obtain ⟨n, rfl, hn⟩ := etaStep?_eq_some_iff.1 hx
      exact hs.eta n x rfl hn
    · by_contra hb
      obtain ⟨r, hr⟩ := Option.ne_none_iff_exists'.1 hb
      obtain ⟨n, e, a, bs, rfl, rfl, hc, -⟩ := betaStep?_eq_some_iff.1 hr
      obtain ⟨ha, hc'⟩ := hs.beta n e a bs rfl rfl
      rcases hc with hc | hc
      · rw [ha] at hc
        cases hc
      · omega
  · rintro ⟨happ, ⟨hbound, hjoin⟩, heta, hbeta⟩
    refine ⟨happ, hbound, hjoin, ?_, ?_⟩
    · rintro n x rfl hn
      rw [etaStep?_eq_some_iff.2 ⟨n, rfl, hn⟩] at heta
      cases heta
    · rintro n e a bs rfl rfl
      by_contra hc
      have hfires : a.isVar = true ∨ e.count n ≤ 1 := by
        cases ha : a.isVar with
        | true => exact .inl rfl
        | false =>
          right
          simp only [ha, true_and] at hc
          omega
      rw [betaStep?_eq_some_iff.2 ⟨n, e, a, bs, rfl, rfl, hfires, rfl⟩] at hbeta
      cases hbeta

/-! ### The rules of normalization -/

/-- The normal form of `h` applied to `as` is `r`. -/
inductive Normalizes : Term → List Term → Term → Prop where
  /-- An argument is put on the spine. -/
  | app {x y r : Term} {as : List Term} : Normalizes x (y :: as) r → Normalizes (.app x y) as r
  /-- A rule applies at the head. -/
  | step {h h' r : Term} {as as' : List Term} : headStep? h as = some (h', as') → Normalizes h' as' r →
    Normalizes h as r
  /-- An argument that is used more than once is normalized to a variable. -/
  | copy {n m : String} {e y r : Term} {bs : List Term} : Stuck (.lambda (.var n) e) (y :: bs) →
    Normalizes y [] (.var m) → Normalizes (substitute n (.var m) e) bs r →
    Normalizes (.lambda (.var n) e) (y :: bs) r
  /-- The head stays, and the arguments are normalized. -/
  | stuck {h : Term} {as : List Term} : Stuck h as →
    (∀ n e y bs, h = .lambda (.var n) e → as = y :: bs → y.normalize.isVar = false) →
    (∀ a ∈ as, Normalizes a [] a.normalize) → Normalizes h as (h.appAll (as.map normalize))

theorem normalizeSpine_app (x y : Term) (as : List Term) :
    normalizeSpine (.app x y) as = normalizeSpine x (y :: as) := by rw [normalizeSpine]

theorem normalizeSpine_of_step {h h' : Term} {as as' : List Term} (hs : headStep? h as = some (h', as')) :
    normalizeSpine h as = normalizeSpine h' as' := by
  rw [normalizeSpine.eq_def]
  split
  · cases hs
  · split
    · next hs' =>
      rw [hs] at hs'
      cases hs'
      rfl
    · next hs' =>
      rw [hs] at hs'
      cases hs'

theorem normalizeSpine_of_copy {n m : String} {e y : Term} {bs : List Term}
    (hs : Stuck (.lambda (.var n) e) (y :: bs)) (hy : y.normalize = .var m) :
    normalizeSpine (.lambda (.var n) e) (y :: bs) = normalizeSpine (substitute n (.var m) e) bs := by
  have hnone := (stuck_iff.1 hs).2
  rw [normalizeSpine.eq_def]
  simp only
  split
  · next hs' =>
    rw [hnone] at hs'
    cases hs'
  · rw [normalize] at hy
    rw [hy]

theorem normalizeSpine_of_stuck {h : Term} {as : List Term} (hs : Stuck h as)
    (hv : ∀ n e y bs, h = .lambda (.var n) e → as = y :: bs → y.normalize.isVar = false) :
    normalizeSpine h as = h.appAll (as.map normalize) := by
  obtain ⟨happ, hnone⟩ := stuck_iff.1 hs
  rw [normalizeSpine.eq_def]
  split
  · next x y => exact absurd rfl (happ x y)
  · split
    · next hs' =>
      rw [hnone] at hs'
      cases hs'
    · split
      · next n e y bs _ _ _ =>
        have hy := hv n e y bs rfl rfl
        rw [normalize] at hy
        split
        · next m hm =>
          rw [hm] at hy
          cases hy
        · rfl
      · rfl

/-- The normalizer goes by the rules: by induction on the weight of the spine. -/
theorem normalizes_normalizeSpine (h : Term) (as : List Term) : Normalizes h as (normalizeSpine h as) := by
  induction hw : spineWeight h as using Nat.strongRecOn generalizing h as with | ind w ih
  subst hw
  by_cases happ : ∃ x y, h = .app x y
  · obtain ⟨x, y, rfl⟩ := happ
    rw [normalizeSpine_app]
    exact .app (ih _ (by simp only [spineWeight, argumentsWeight, size]; omega) x (y :: as) rfl)
  cases hs : headStep? h as with
  | some r =>
    obtain ⟨h', as'⟩ := r
    rw [normalizeSpine_of_step hs]
    exact .step hs (ih _ (headStep?_weight hs) h' as' rfl)
  | none =>
    have hstuck : Stuck h as := stuck_iff.2 ⟨fun x y e => happ ⟨x, y, e⟩, hs⟩
    have hargs : ∀ a ∈ as, Normalizes a [] a.normalize := by
      intro a ha
      refine ih _ ?_ a [] rfl
      rw [spineWeight_nil]
      exact lt_spineWeight_of_mem ha
    by_cases hv : ∃ n e y bs m, h = .lambda (.var n) e ∧ as = y :: bs ∧ y.normalize = .var m
    · obtain ⟨n, e, y, bs, m, rfl, rfl, hm⟩ := hv
      have hlt : spineWeight (substitute n (.var m) e) bs < spineWeight (.lambda (.var n) e) (y :: bs) := by
        simp only [spineWeight, argumentsWeight, size_substitute_var, size]
        omega
      rw [normalizeSpine_of_copy hstuck hm]
      exact .copy hstuck (hm ▸ hargs y List.mem_cons_self) (ih _ hlt _ bs rfl)
    · have hv : ∀ n e y bs, h = .lambda (.var n) e → as = y :: bs → y.normalize.isVar = false := by
        rintro n e y bs rfl rfl
        rw [isVar_eq_false_iff]
        exact fun m hm => hv ⟨n, e, y, bs, m, rfl, rfl, hm⟩
      rw [normalizeSpine_of_stuck hstuck hv]
      exact .stuck hstuck hv hargs

theorem normalizes_normalize (t : Term) : Normalizes t [] t.normalize := normalizes_normalizeSpine t []

/-! ### Normal forms -/

/-- The spine is stuck, and the arguments are normal. -/
inductive Normal : Term → Prop where
  | spine {h : Term} {as : List Term} : Stuck h as → (∀ a ∈ as, Normal a) → Normal (h.appAll as)

/-- A term has one spine only. -/
theorem appAll_inj {h k : Term} {as bs : List Term} (hh : ∀ x y, h ≠ .app x y) (hk : ∀ x y, k ≠ .app x y)
    (e : h.appAll as = k.appAll bs) : h = k ∧ as = bs := by
  induction as using List.reverseRecOn generalizing bs with
  | nil =>
    cases bs using List.reverseRecOn with
    | nil => exact ⟨e, rfl⟩
    | append_singleton bs b =>
      rw [appAll_append] at e
      exact absurd e (hh _ _)
  | append_singleton as a ih =>
    cases bs using List.reverseRecOn with
    | nil =>
      rw [appAll_append] at e
      exact absurd e.symm (hk _ _)
    | append_singleton bs b =>
      rw [appAll_append, appAll_append] at e
      injection e with _ e ha
      obtain ⟨rfl, rfl⟩ := ih e
      exact ⟨rfl, by rw [ha]⟩

theorem normal_appAll_iff {h : Term} {as : List Term} (hh : ∀ x y, h ≠ .app x y) :
    (h.appAll as).Normal ↔ Stuck h as ∧ ∀ a ∈ as, a.Normal := by
  constructor
  · intro hn
    generalize ht : h.appAll as = t at hn
    cases hn with
    | spine hs has =>
      obtain ⟨rfl, rfl⟩ := appAll_inj hh hs.not_app ht
      exact ⟨hs, has⟩
  · rintro ⟨hs, has⟩
    exact .spine hs has

/-- A stuck spine stays stuck when the arguments are normalized, unless the first one becomes a variable. -/
theorem Stuck.map_normalize {h : Term} {as : List Term} (hs : Stuck h as)
    (hv : ∀ n e y bs, h = .lambda (.var n) e → as = y :: bs → y.normalize.isVar = false) :
    Stuck h (as.map normalize) where
  not_app := hs.not_app
  bound o ho hh := by rw [hs.bound o ho hh, List.map_nil]
  join := hs.join
  eta := hs.eta
  beta n e a bs hh has := by
    obtain ⟨y, ys, rfl, rfl, -⟩ := List.map_eq_cons_iff.1 has
    exact ⟨hv n e y ys hh rfl, (hs.beta n e y ys hh rfl).2⟩

theorem Normalizes.normal {h r : Term} {as : List Term} (hr : Normalizes h as r) : r.Normal := by
  induction hr with
  | app _ ih => exact ih
  | step _ _ ih => exact ih
  | copy _ _ _ _ ih => exact ih
  | stuck hs hv _ ih =>
    refine .spine (hs.map_normalize hv) fun a ha => ?_
    obtain ⟨y, hy, rfl⟩ := List.mem_map.1 ha
    exact ih y hy

theorem normal_normalize (t : Term) : t.normalize.Normal := (normalizes_normalize t).normal

theorem normalizeSpine_appAll (h : Term) (as bs : List Term) :
    normalizeSpine (h.appAll as) bs = normalizeSpine h (as ++ bs) := by
  induction as generalizing h with
  | nil => rfl
  | cons a as ih => rw [appAll_cons, ih, normalizeSpine_app, List.cons_append]

theorem normalize_of_normal {t : Term} (h : t.Normal) : t.normalize = t := by
  induction h with
  | @spine h as hs _ ih =>
    have hv : ∀ n e y bs, h = .lambda (.var n) e → as = y :: bs → y.normalize.isVar = false := by
      rintro n e y bs rfl rfl
      rw [ih y List.mem_cons_self]
      exact (hs.beta n e y bs rfl rfl).1
    rw [normalize, normalizeSpine_appAll, List.append_nil, normalizeSpine_of_stuck hs hv]
    rw [List.map_congr_left ih, List.map_id']

theorem normalize_eq_self_iff {t : Term} : t.normalize = t ↔ t.Normal := by
  constructor
  · intro h
    rw [← h]
    exact normal_normalize t
  · exact normalize_of_normal

end Combinatory.Term
