import Combinatory.Proofs.AlphaEquivalence
import Combinatory.Proofs.NormalForm
import Combinatory.Proofs.Normalization
import Mathlib.Data.List.Forall2

/-!
# Simplification is canonical

Simplification does not depend on the choice of bound names, and simplifying a second time changes nothing.

## The proof

Whether a rule applies at the head of a spine can be read off the forms of the head and of the arguments, and so can
the form of what it gives (`headStep?_of_alphaEq`). By induction on the rules of normalization, terms that are equal
up to bound names have normal forms that are (`alphaEq_normalize`), and a term that is normal up to bound names is
normal (`Normal.of_alphaEq`). Canonical names do the rest.

## What is proved

* `simplify_eq_of_alphaEq`: terms that are equal up to bound names are simplified to the same term.
* `simplify_idempotent`: what a term is simplified to is simplified to itself.
-/

namespace Combinatory

open Nameless

/-! ### Occurrences -/

namespace Nameless

/-- How often the variable at a position of the scope occurs. -/
def occurrences : Nameless → Nat → Nat
  | .name _, _ | .const _, _ | .free _, _ => 0
  | .bound i, k => if i = k then 1 else 0
  | .unary _ x, k => x.occurrences k
  | .binary _ x y, k => x.occurrences k + y.occurrences k
  | .lambda m _ e, k => e.occurrences (m + k)
  | .letrec m _ d e, k => d.occurrences (m + k) + e.occurrences (m + k)

end Nameless

namespace Term

/-- The free occurrences of a variable are those of its position in the scope, if it is not bound within. -/
theorem occurrences_nameless (t : Term) (Ξ Γ : List String) (n : String) :
    (t.nameless (Ξ ++ n :: Γ)).occurrences Ξ.length = if n ∈ Ξ then 0 else t.count n := by
  induction t generalizing Ξ with
  | name _ | const _ => simp [nameless, occurrences, count]
  | var m =>
    by_cases hm : m ∈ Ξ
    · have hlt := List.idxOf_lt_length_of_mem hm
      simp only [nameless, resolve, List.mem_append, hm, true_or, if_true, List.idxOf_append_of_mem hm, occurrences,
        count]
      grind
    · simp only [nameless, resolve, List.mem_append, hm, false_or, List.mem_cons, count]
      by_cases hmn : m = n
      · subst hmn
        simp [hm, List.idxOf_append_of_notMem hm, occurrences]
      · by_cases hΓ : m ∈ Γ
        · simp [hmn, hΓ, List.idxOf_append_of_notMem hm, List.idxOf_cons_ne Γ (Ne.symm hmn), occurrences]
        · simp [hmn, hΓ, occurrences]
  | unary _ _ ih => exact ih Ξ
  | binary _ _ _ ihx ihy =>
    simp only [nameless, occurrences, ihx, ihy, count]
    split <;> rfl
  | lambda p e _ ihe =>
    have he := ihe (p.binders ++ Ξ)
    simp only [List.append_assoc, List.length_append, length_binders, List.mem_append, mem_binders] at he
    simp only [nameless, occurrences, he, count]
    by_cases hp : n ∈ p.payloads
    · simp [hp]
    · simp [hp, count_eq_zero_of_not_mem hp]
  | letrec p d e _ ihd ihe =>
    have hd := ihd (p.binders ++ Ξ)
    have he := ihe (p.binders ++ Ξ)
    simp only [List.append_assoc, List.length_append, length_binders, List.mem_append, mem_binders] at hd he
    simp only [nameless, occurrences, hd, he, count]
    by_cases hp : n ∈ p.payloads
    · simp [hp]
    · simp only [hp, false_or, if_false, count_eq_zero_of_not_mem hp, Nat.zero_add]
      split <;> rfl

theorem occurrences_nameless_cons (t : Term) (n : String) (Γ : List String) :
    (t.nameless (n :: Γ)).occurrences 0 = t.count n := t.occurrences_nameless [] Γ n

/-- Variables bound in the same way occur equally often. -/
theorem count_eq_of_nameless_eq {e e' : Term} {n n' : String} (h : e.nameless [n] = e'.nameless [n']) :
    e.count n = e'.count n' := by
  rw [← occurrences_nameless_cons e n [], ← occurrences_nameless_cons e' n' [], h]

/-- A variable that does not occur need not be bound. -/
theorem nameless_singleton_of_count_eq_zero {t : Term} {n : String} (h : t.count n = 0) :
    t.nameless [n] = t.nameless [] := by
  apply nameless_eq_nil
  intro m hm hmem
  rw [List.mem_singleton] at hmem
  exact count_eq_zero_iff.1 h (hmem ▸ hm)

/-! ### Shapes of equal terms -/

namespace AlphaEq

variable {t u x y e : Term} {n : String}

theorem of_app (h : AlphaEq (.app x y) u) : ∃ x' y', u = .app x' y' ∧ AlphaEq x x' ∧ AlphaEq y y' := by
  obtain ⟨x', y', rfl, hx, hy⟩ := nameless_eq_binary.1 h.symm
  exact ⟨x', y', rfl, hx.symm, hy.symm⟩

theorem of_lambda (h : AlphaEq (.lambda (.var n) e) u) :
    ∃ n' e', u = .lambda (.var n') e' ∧ e.nameless [n] = e'.nameless [n'] := by
  rw [AlphaEq, nameless_lambda_var] at h
  obtain ⟨n', e', rfl, he⟩ := nameless_eq_lambda h.symm
  exact ⟨n', e', rfl, he.symm⟩

theorem of_var (h : AlphaEq (.var n) u) : u = .var n := by
  rw [AlphaEq, nameless, resolve_nil] at h
  exact nameless_nil_eq_free.1 h.symm

theorem eq_const_iff (h : AlphaEq t u) {o : Const} : t = .const o ↔ u = .const o := by
  rw [← nameless_eq_const (Γ := []), h, nameless_eq_const]

theorem isVar_eq (h : AlphaEq t u) : t.isVar = u.isVar := by
  cases ht : t.isVar with
  | false =>
    rw [eq_comm, isVar_eq_false_iff]
    rintro m rfl
    rw [isVar_eq_false_iff] at ht
    exact ht m (of_var h.symm)
  | true =>
    obtain ⟨m, rfl⟩ : ∃ m, t = .var m := by
      by_contra hm
      rw [isVar_eq_false_iff.2 fun m e => hm ⟨m, e⟩] at ht
      cases ht
    rw [of_var h]
    rfl

/-- Terms that are equal up to bound names have spines that are. -/
theorem of_appAll {h : Term} {as : List Term} (hu : AlphaEq (h.appAll as) u) :
    ∃ h' as', u = h'.appAll as' ∧ AlphaEq h h' ∧ List.Forall₂ AlphaEq as as' := by
  induction as generalizing h with
  | nil => exact ⟨u, [], rfl, hu, .nil⟩
  | cons a as ih =>
    obtain ⟨ha, as', rfl, hha, has⟩ := ih hu
    obtain ⟨h', a', rfl, hh, ha⟩ := hha.of_app
    exact ⟨h', a' :: as', rfl, hh, .cons ha has⟩

theorem appAll {h h' : Term} {as as' : List Term} (hh : AlphaEq h h') (has : List.Forall₂ AlphaEq as as') :
    AlphaEq (h.appAll as) (h'.appAll as') := by
  induction has generalizing h h' with
  | nil => exact hh
  | cons ha _ ih =>
    apply ih
    rw [AlphaEq, nameless, nameless, hh, ha]

end AlphaEq

/-! ### Steps do not depend on bound names -/

section

variable {h h' k : Term} {as as' bs : List Term}

theorem latticeStep?_of_alphaEq (hh : AlphaEq h h') (has : List.Forall₂ AlphaEq as as')
    (hs : latticeStep? h as = some (k, bs)) :
    ∃ k' bs', latticeStep? h' as' = some (k', bs') ∧ AlphaEq k k' ∧ List.Forall₂ AlphaEq bs bs' := by
  cases h with
  | const o =>
    obtain rfl := hh.eq_const_iff.1 rfl
    cases has with
    | nil => simp [latticeStep?] at hs
    | cons ha has =>
      rw [latticeStep?_const] at hs ⊢
      split at hs
      · next ho =>
        cases hs
        exact ⟨_, _, if_pos ho, rfl, .nil⟩
      · cases hs
  | binary b x y =>
    cases b with
    | join =>
      obtain ⟨x', y', rfl, hx, hy⟩ := nameless_eq_binary.1 hh.symm
      have hx : AlphaEq x x' := hx.symm
      have hy : AlphaEq y y' := hy.symm
      rw [latticeStep?_join] at hs ⊢
      simp only [hx.eq_const_iff, hy.eq_const_iff] at hs
      split at hs
      · next htop =>
        cases hs
        exact ⟨_, _, if_pos htop, rfl, .nil⟩
      · next htop =>
        rw [if_neg htop]
        split at hs
        · next hxbot =>
          cases hs
          exact ⟨_, _, if_pos hxbot, hy, has⟩
        · next hxbot =>
          rw [if_neg hxbot]
          split at hs
          · next hybot =>
            cases hs
            exact ⟨_, _, if_pos hybot, hx, has⟩
          · cases hs
    | app | comp | rand | define | stack | less | nless | equal => simp [latticeStep?] at hs
  | name _ | var _ | unary _ _ | lambda _ _ | letrec _ _ _ => simp [latticeStep?] at hs

theorem etaStep?_of_alphaEq (hh : AlphaEq h h') (hs : etaStep? h = some k) :
    ∃ k', etaStep? h' = some k' ∧ AlphaEq k k' := by
  obtain ⟨n, rfl, hn⟩ := etaStep?_eq_some_iff.1 hs
  obtain ⟨n', e', rfl, he⟩ := hh.of_lambda
  obtain ⟨k', v, rfl, hk, hv⟩ := nameless_eq_binary.1 he.symm
  rw [nameless_var, resolve_cons_self] at hv
  obtain ⟨m, rfl⟩ := nameless_eq_bound hv
  -- the variable is the one that is bound
  obtain rfl : m = n' := by
    rw [nameless_var, resolve] at hv
    split at hv
    · next hm => exact List.mem_singleton.1 hm
    · cases hv
  have hn' : k'.count m = 0 := by rw [count_eq_of_nameless_eq hk, hn]
  rw [nameless_singleton_of_count_eq_zero hn, nameless_singleton_of_count_eq_zero hn'] at hk
  exact ⟨k', etaStep?_eq_some_iff.2 ⟨m, rfl, hn'⟩, hk.symm⟩

theorem alphaEq_substitute {n n' : String} {e e' a a' : Term} (he : e.Tidy) (he' : e'.Tidy)
    (h : e.nameless [n] = e'.nameless [n']) (ha : AlphaEq a a') :
    AlphaEq (substitute n a e) (substitute n' a' e') := by
  rw [AlphaEq, nameless_substitute_nil he, nameless_substitute_nil he', ← instantiate_nameless_singleton,
    ← instantiate_nameless_singleton, h, ha]

theorem betaStep?_of_alphaEq (hh : AlphaEq h h') (has : List.Forall₂ AlphaEq as as')
    (hs : betaStep? h as = some (k, bs)) :
    ∃ k' bs', betaStep? h' as' = some (k', bs') ∧ (h.Tidy → h'.Tidy → AlphaEq k k') ∧
      List.Forall₂ AlphaEq bs bs' := by
  obtain ⟨n, e, a, cs, rfl, rfl, hc, hr⟩ := betaStep?_eq_some_iff.1 hs
  cases hr
  obtain ⟨n', e', rfl, he⟩ := hh.of_lambda
  cases has with
  | @cons _ a' _ cs' ha has =>
    rw [ha.isVar_eq, count_eq_of_nameless_eq he] at hc
    refine ⟨_, cs', betaStep?_eq_some_iff.2 ⟨n', e', a', cs', rfl, rfl, hc, rfl⟩, fun ht ht' => ?_, has⟩
    exact alphaEq_substitute (tidy_lambda.1 ht).2 (tidy_lambda.1 ht').2 he ha

/-- **Steps**: equal spines up to bound names make the same step. -/
theorem headStep?_of_alphaEq (hh : AlphaEq h h') (has : List.Forall₂ AlphaEq as as')
    (hs : headStep? h as = some (k, bs)) :
    ∃ k' bs', headStep? h' as' = some (k', bs') ∧ (h.Tidy → h'.Tidy → AlphaEq k k') ∧
      List.Forall₂ AlphaEq bs bs' := by
  rcases headStep?_eq_some_iff.1 hs with hs | ⟨x, hx, hr⟩ | ⟨he, hs⟩
  · obtain ⟨k', bs', hs', hk, hbs⟩ := latticeStep?_of_alphaEq hh has hs
    exact ⟨k', bs', headStep?_eq_some_iff.2 (.inl hs'), fun _ _ => hk, hbs⟩
  · cases hr
    obtain ⟨k', hs', hk⟩ := etaStep?_of_alphaEq hh hx
    exact ⟨k', as', headStep?_eq_some_iff.2 (.inr (.inl ⟨k', hs', rfl⟩)), fun _ _ => hk, has⟩
  · have he' : etaStep? h' = none := by
      by_contra hne
      obtain ⟨x', hx'⟩ := Option.ne_none_iff_exists'.1 hne
      obtain ⟨x, hx, -⟩ := etaStep?_of_alphaEq hh.symm hx'
      rw [he] at hx
      cases hx
    obtain ⟨k', bs', hs', hk, hbs⟩ := betaStep?_of_alphaEq hh has hs
    exact ⟨k', bs', headStep?_eq_some_iff.2 (.inr (.inr ⟨he', hs'⟩)), hk, hbs⟩

/-- Equal spines up to bound names are stuck together. -/
theorem Stuck.of_alphaEq (hs : Stuck h as) (hh : AlphaEq h h') (has : List.Forall₂ AlphaEq as as') :
    Stuck h' as' := by
  obtain ⟨happ, hnone⟩ := stuck_iff.1 hs
  rw [stuck_iff]
  constructor
  · rintro x y rfl
    obtain ⟨x', y', rfl, -⟩ := AlphaEq.of_app hh.symm
    exact happ x' y' rfl
  · by_contra hne
    obtain ⟨⟨k', bs'⟩, hs'⟩ := Option.ne_none_iff_exists'.1 hne
    have has' : List.Forall₂ AlphaEq as' as := has.flip.imp fun _ _ h => h.symm
    obtain ⟨k, bs, hs, -⟩ := headStep?_of_alphaEq hh.symm has' hs'
    rw [hnone] at hs
    cases hs

end

/-! ### Normal forms do not depend on bound names -/

/-- A term that is normal up to bound names is normal. -/
theorem Normal.of_alphaEq {t u : Term} (ht : t.Normal) (h : AlphaEq t u) : u.Normal := by
  induction ht generalizing u with
  | @spine k as hs _ ih =>
    obtain ⟨k', as', rfl, hk, has⟩ := h.of_appAll
    refine .spine (hs.of_alphaEq hk has) ?_
    have hargs := (List.forall₂_and_left as as').2 ⟨fun a ha => @ih a ha, has⟩
    have hnormal : List.Forall₂ (fun a' a => a'.Normal ∧ AlphaEq a a') as' as :=
      hargs.flip.imp fun a' a h => ⟨h.1 h.2, h.2⟩
    exact ((List.forall₂_and_left as' as).1 hnormal).1

theorem tidy_appAll {h : Term} {as : List Term} : (h.appAll as).Tidy ↔ h.Tidy ∧ ∀ a ∈ as, a.Tidy :=
  appAll_iff fun _ _ => tidy_binary

theorem Normalizes.alphaEq {h h' r : Term} {as as' : List Term} (hr : Normalizes h as r)
    (ht : (h.appAll as).Tidy) (ht' : (h'.appAll as').Tidy) (hh : AlphaEq h h')
    (has : List.Forall₂ AlphaEq as as') : AlphaEq r (normalizeSpine h' as') := by
  induction hr generalizing h' as' with
  | app _ ih =>
    obtain ⟨x', y', rfl, hx, hy⟩ := hh.of_app
    rw [normalizeSpine_app]
    exact ih ht ht' hx (.cons hy has)
  | step hs _ ih =>
    obtain ⟨k', bs', hs', hk, hbs⟩ := headStep?_of_alphaEq hh has hs
    rw [normalizeSpine_of_step hs']
    exact ih ((simplifies_headStep? hs).tidy ht) ((simplifies_headStep? hs').tidy ht')
      (hk (tidy_appAll.1 ht).1 (tidy_appAll.1 ht').1) hbs
  | @copy n m e y r bs hs _ _ ihy ihr =>
    have hs' := hs.of_alphaEq hh has
    obtain ⟨n', e', rfl, he⟩ := hh.of_lambda
    obtain ⟨y', bs', hy, hbs, rfl⟩ := List.forall₂_cons_left_iff.1 has
    rw [tidy_appAll, tidy_lambda, List.forall_mem_cons] at ht ht'
    obtain ⟨⟨-, hte⟩, hty, htbs⟩ := ht
    obtain ⟨⟨-, hte'⟩, hty', htbs'⟩ := ht'
    have hm : y'.normalize = .var m := (@ihy y' [] hty hty' hy .nil).of_var
    rw [normalizeSpine_of_copy hs' hm]
    exact ihr (tidy_appAll.2 ⟨tidy_substitute (tidy_var m) hte, htbs⟩)
      (tidy_appAll.2 ⟨tidy_substitute (tidy_var m) hte', htbs'⟩) (alphaEq_substitute hte hte' he rfl) hbs
  | @stuck h as hs hv _ ih =>
    rw [tidy_appAll] at ht ht'
    have hargs : List.Forall₂ (fun a a' => AlphaEq a.normalize a'.normalize) as as' := by
      have hleft := (List.forall₂_and_left as as').2 ⟨fun a ha a' => @ih a ha a' [] (ht.2 a ha), has⟩
      have hboth := (List.forall₂_and_left as' as).2 ⟨ht'.2, hleft.flip⟩
      exact hboth.flip.imp fun a a' h => h.2.1 a' h.1 h.2.2 .nil
    have hv' : ∀ n e y bs, h' = .lambda (.var n) e → as' = y :: bs → y.normalize.isVar = false := by
      rintro n' e' y' bs' rfl rfl
      obtain ⟨n, e, rfl, -⟩ := AlphaEq.of_lambda hh.symm
      obtain ⟨y, bs, hy, -, rfl⟩ := List.forall₂_cons_right_iff.1 hargs
      rw [← hy.isVar_eq]
      exact hv n e y bs rfl rfl
    rw [normalizeSpine_of_stuck (hs.of_alphaEq hh has) hv']
    apply AlphaEq.appAll hh
    rw [List.forall₂_map_left_iff, List.forall₂_map_right_iff]
    exact hargs

theorem alphaEq_normalize {t u : Term} (ht : t.Tidy) (hu : u.Tidy) (h : AlphaEq t u) :
    AlphaEq t.normalize u.normalize :=
  (normalizes_normalize t).alphaEq ht hu h .nil

/-! ### Binders stay linear -/

theorem linearBinders_rename {old new : String} {t : Term} (h : t.LinearBinders) :
    (t.rename old new).LinearBinders := by
  induction t with
  | name _ | const _ => exact h
  | var m =>
    rw [rename]
    split <;> trivial
  | unary _ _ ih => exact ih h
  | binary _ _ _ ihx ihy => exact ⟨ihx h.1, ihy h.2⟩
  | lambda p e _ ihe =>
    rw [rename]
    split
    · exact h
    · next hc =>
      -- the pattern does not have the name that is renamed
      have hp : old ∉ p.payloads := fun hp => hc (by simp [count, hp])
      rw [rename_of_count_eq_zero (count_eq_zero_of_not_mem hp)]
      exact ⟨h.1, ihe h.2⟩
  | letrec p d e _ ihd ihe =>
    rw [rename]
    split
    · exact h
    · next hc =>
      have hp : old ∉ p.payloads := fun hp => hc (by simp [count, hp])
      rw [rename_of_count_eq_zero (count_eq_zero_of_not_mem hp)]
      exact ⟨h.1, ihd h.2.1, ihe h.2.2⟩

theorem linearBinders_renameAll {pairs : List (String × String)} {t : Term} (h : t.LinearBinders) :
    (t.renameAll pairs).LinearBinders := by
  induction pairs generalizing t with
  | nil => exact h
  | cons r rs ih => exact ih (linearBinders_rename h)

/-- Renaming a pattern merges no names. -/
theorem Renames.payloads_nodup {pairs : List (String × String)} {p : Term} (h : Renames pairs p)
    (hp : p.payloads.Nodup) : (p.renameAll pairs).payloads.Nodup := by
  induction pairs generalizing p with
  | nil => exact hp
  | cons r rs ih =>
    obtain ⟨old, new⟩ := r
    refine ih h.tail ?_
    rw [payloads_rename h.wellFormed h.binderFree]
    refine hp.map_on fun n hn m hm hnm => ?_
    have hnew : new ∉ p.payloads := h.new_not_mem _ List.mem_cons_self
    unfold renamed at hnm
    grind

theorem Inserts.linearBinders {n : String} {d t u : Term} (h : Inserts n d t u) (hd : d.LinearBinders)
    (ht : t.LinearBinders) : u.LinearBinders := by
  induction h with
  | unchanged _ _ => exact ht
  | here => exact hd
  | unary c _ ih => exact ih ht
  | binary b _ _ ihx ihy => exact ⟨ihx ht.1, ihy ht.2⟩
  | lambda hr _ _ ih => exact ⟨hr.payloads_nodup ht.1, ih (linearBinders_renameAll ht.2)⟩
  | letrec hr _ _ _ _ ihf ihe =>
    exact ⟨hr.payloads_nodup ht.1, ihf (linearBinders_renameAll ht.2.1), ihe (linearBinders_renameAll ht.2.2)⟩

theorem Simplifies.linearBinders {t u : Term} (h : Simplifies t u) (ht : t.Tidy) (hl : t.LinearBinders) :
    u.LinearBinders := by
  have hkeeps : Hereditary fun t => t.Tidy ∧ t.LinearBinders :=
    .ofTidy Iff.rfl id And.right fun ht he ha => (inserts_substitute ht).linearBinders ha he.2
  exact (h.keeps hkeeps ⟨ht, hl⟩).2

/-! ### Simplification -/

/-- A term with simple and linear binders can be simplified. -/
theorem exists_simplify {t : Term} (ht : t.Tidy) (hl : t.LinearBinders) : ∃ r, t.simplify = .ok r := by
  have hs := simplifies_normalize t
  exact exists_canonical (hs.wellFormed ht.1) (hs.linearBinders ht hl)

/-- **Simplification does not depend on bound names**: terms that are equal up to bound names are simplified to the
same term. -/
theorem simplify_eq_of_alphaEq {t u : Term} (ht : t.WellFormed) (hts : t.SimpleBinders) (htl : t.LinearBinders)
    (hu : u.WellFormed) (hus : u.SimpleBinders) (hul : u.LinearBinders) (h : AlphaEq t u) :
    ∃ r, t.simplify = .ok r ∧ u.simplify = .ok r := by
  obtain ⟨r, hr⟩ := exists_simplify ⟨ht, hts⟩ htl
  obtain ⟨s, hs⟩ := exists_simplify ⟨hu, hus⟩ hul
  have hform := canonicalForm_canonical ((simplifies_normalize t).wellFormed ht) hr
  have hform' := canonicalForm_canonical ((simplifies_normalize u).wellFormed hu) hs
  obtain rfl : r = s := hform.2.eq_of_alphaEq hform'.2 (alphaEq_normalize ⟨ht, hts⟩ ⟨hu, hus⟩ h)
  exact ⟨r, hr, hs⟩

/-- Of the two terms only the first one would capture the argument, and renames its inner binder. -/
theorem simplify_eq_of_alphaEq_capture :
    ∃ r,
      (app (.lambda (.var "x") (.lambda (.var "y") (app (.var "x") (app (.var "y") (.var "y")))))
        (.var "y")).simplify = .ok r ∧
      (app (.lambda (.var "z") (.lambda (.var "w") (app (.var "z") (app (.var "w") (.var "w")))))
        (.var "y")).simplify = .ok r :=
  simplify_eq_of_alphaEq (by simp [WellFormed]) (by simp [SimpleBinders, BinderFree])
    (by simp [LinearBinders, payloads]) (by simp [WellFormed]) (by simp [SimpleBinders, BinderFree])
    (by simp [LinearBinders, payloads]) (by unfold AlphaEq; decide +kernel)

/-- **Simplification is idempotent**: what a term is simplified to is simplified to itself. -/
theorem simplify_idempotent {t r : Term} (ht : t.WellFormed) (h : t.simplify = .ok r) : r.simplify = .ok r := by
  have hform := (canonicalForm_canonical ((simplifies_normalize t).wellFormed ht) h).2
  -- the result is normal, since it is the normal form of the term up to bound names
  have hnormal : r.normalize = r := normalize_of_normal ((normal_normalize t).of_alphaEq hform.alphaEq.symm)
  obtain ⟨s, hs⟩ := exists_canonical hform.wellFormed (linearBinders_of_nodup_boundNames hform.boundNames_nodup)
  have hform' := (canonicalForm_canonical hform.wellFormed hs).2
  -- it has a canonical form of its own, and that is the same
  obtain rfl : s = r := hform'.eq_of_alphaEq hform hform.alphaEq
  rw [simplify, hnormal]
  exact hs

/-- The parameter occurs twice and the argument is no variable, so the simplified term is still an application. -/
theorem simplify_idempotent_redex :
    (app (.lambda (.var "a") (app (.var "a") (.var "a"))) (.lambda (.var "b") (.var "b"))).simplify =
      .ok (app (.lambda (.var "a") (app (.var "a") (.var "a"))) (.lambda (.var "b") (.var "b"))) :=
  simplify_idempotent
    (t := app (.lambda (.var "x") (app (.var "x") (.var "x")))
      (app (.lambda (.var "y") (.var "y")) (.lambda (.var "z") (.var "z"))))
    (by simp [WellFormed]) (by decide +kernel)

/-! ### Simplification of canonical forms -/

/-- Whether a term has binders is seen in its form. -/
theorem BinderFree.of_nameless_eq {t u : Term} {Γ Δ : List String} (h : t.nameless Γ = u.nameless Δ)
    (ht : t.BinderFree) : u.BinderFree := by
  induction t generalizing u Γ Δ with
  | name n =>
    rw [nameless_eq_name.1 h.symm]
    trivial
  | const o =>
    rw [nameless_eq_const.1 h.symm]
    trivial
  | var n =>
    obtain ⟨m, rfl⟩ := nameless_eq_resolve h.symm
    trivial
  | unary c x ih =>
    obtain ⟨x', rfl, hx⟩ := nameless_eq_unary.1 h.symm
    show x'.BinderFree
    exact ih hx.symm ht
  | binary b x y ihx ihy =>
    obtain ⟨x', y', rfl, hx, hy⟩ := nameless_eq_binary.1 h.symm
    exact ⟨ihx hx.symm ht.1, ihy hy.symm ht.2⟩
  | lambda _ _ | letrec _ _ _ => exact ht.elim

theorem SimpleBinders.of_nameless_eq {t u : Term} {Γ Δ : List String} (h : t.nameless Γ = u.nameless Δ)
    (ht : t.SimpleBinders) : u.SimpleBinders := by
  induction t generalizing u Γ Δ with
  | name n =>
    rw [nameless_eq_name.1 h.symm]
    trivial
  | const o =>
    rw [nameless_eq_const.1 h.symm]
    trivial
  | var n =>
    obtain ⟨m, rfl⟩ := nameless_eq_resolve h.symm
    trivial
  | unary c x ih =>
    obtain ⟨x', rfl, hx⟩ := nameless_eq_unary.1 h.symm
    show x'.SimpleBinders
    exact ih hx.symm ht
  | binary b x y ihx ihy =>
    obtain ⟨x', y', rfl, hx, hy⟩ := nameless_eq_binary.1 h.symm
    exact ⟨ihx hx.symm ht.1, ihy hy.symm ht.2⟩
  | lambda p e _ ihe =>
    obtain ⟨q, e', rfl, -, hp, he⟩ := nameless_eq_lambda_iff.1 h.symm
    exact ⟨ht.1.of_nameless_eq hp.symm, ihe he.symm ht.2⟩
  | letrec p d e _ ihd ihe =>
    obtain ⟨q, d', e', rfl, -, hp, hd, he⟩ := nameless_eq_letrec_iff.1 h.symm
    obtain ⟨hp', hd', he'⟩ := ht
    exact ⟨hp'.of_nameless_eq hp.symm, ihd hd.symm hd', ihe he.symm he'⟩

theorem CanonicalForm.tidy {t r : Term} (h : CanonicalForm t r) (ht : t.Tidy) : r.Tidy :=
  ⟨h.wellFormed, ht.2.of_nameless_eq h.alphaEq.symm⟩

theorem canonicalForm_simplify {t r : Term} (ht : t.WellFormed) (h : t.simplify = .ok r) :
    CanonicalForm t.normalize r :=
  (canonicalForm_canonical ((simplifies_normalize t).wellFormed ht) h).2

/-- What a term is simplified to, its canonical form is simplified to as well. -/
theorem CanonicalForm.simplify_eq_ok {t r s : Term} (h : CanonicalForm t r) (ht : t.Tidy) (hs : t.simplify = .ok s) :
    r.simplify = .ok s := by
  have hr := h.tidy ht
  obtain ⟨s', hs'⟩ := exists_simplify hr (linearBinders_of_nodup_boundNames h.boundNames_nodup)
  obtain rfl : s' = s := (canonicalForm_simplify hr.1 hs').eq_of_alphaEq (canonicalForm_simplify ht.1 hs)
    (alphaEq_normalize hr ht h.alphaEq)
  exact hs'

/-- The canonical form is the simplified term for normal terms, and only for them. -/
theorem canonical_eq_ok_iff_normal {t r : Term} (ht : t.WellFormed) (h : t.simplify = .ok r) :
    t.canonical = .ok r ↔ t.Normal := by
  constructor
  · intro hcanon
    have hform := (canonicalForm_canonical ht hcanon).2
    exact (normal_normalize t).of_alphaEq ((canonicalForm_simplify ht h).alphaEq.symm.trans hform.alphaEq)
  · intro hnormal
    rwa [simplify, normalize_of_normal hnormal] at h

end Term

end Combinatory
