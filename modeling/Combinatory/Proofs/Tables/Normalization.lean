import Combinatory.Proofs.NormalForm
import Combinatory.Proofs.Spine
import Combinatory.Proofs.SubstitutionSteps
import Combinatory.Proofs.Tables.Evaluation

/-!
# The tables of normalization

Unfolding, folding and normalizing spines by tables, and substitution by calls for substitutions below the head, come to
what the functions give that do the same directly.

## The proof

The tables know a spine as a chain of cells, and the functions as a head with a list of arguments; the two are tied by
`Term.toStackOnto`. For each rule of `Term.Normalizes` the table is evaluated on the spine that the rule is about, and
calls for the spine that the rule leads to. So a run is followed by induction on the rules, which normalization obeys,
and ends where they do. Substitution is followed by induction on the size of the term, since below a binder it goes on
in a renamed term.

## What is proved

* `exec_toStackOnto`, `exec_fromStack` — spines are unfolded and folded. A chain that is no spine is refused.
* `exec_substitute` — substitution ends without a fault.
* `exec_normalize` — normalization ends without a fault and without an error: all its spines end with `NIL`, and so it
  finds a rule for each of them and can fold it again.
-/

namespace Combinatory.Tables

open Term (stack stackAll)

variable {h x t r : Term} {as : List Term} {n : String}

/-! ### Spines -/

theorem exec_pushOnto_eq (t : Term) : (pushOnto t).exec answer = evaluate "to_stack" toStackRules t :=
  exec_apply .toStack t

theorem exec_fromStack_eq (s : Term) :
    Attempt.exec answer (fromStack s) = (evaluate "from_stack" fromStackRules s).run' () :=
  exec_apply_inContext .fromStack s ()

/-- An application is pushed onto the spine argument by argument, from the last. -/
theorem exec_pushOnto (t : Term) (as : List Term) (tail : Term) :
    ((pushOnto t).exec answer).run (stackAll as tail) = pure (t.toStackOnto as tail, .const .nil) := by
  fun_induction Term.toStackOnto t as tail with
  | case1 as x y ih =>
    rw [exec_pushOnto_eq]
    simpa [toStackRules] using ih
  | case2 as h hh =>
    rw [exec_pushOnto_eq]
    simp [toStackRules, bind_node_binary_of_ne hh, getModify]

@[simp] theorem exec_toStackOnto (h : Term) (as : List Term) (tail : Term) :
    Attempt.exec answer (toStackOnto h as tail) = pure (h.toStackOnto as tail) := by
  simp [toStackOnto, exec_pushOnto]

@[simp] theorem exec_toStack (t : Term) : Attempt.exec answer (toStack t) = pure t.toStack :=
  exec_toStackOnto t [] (.const .nil)

/-- The first item of a spine is applied to the others one by one. -/
theorem exec_fromStack_stack (x tail : Term) :
    Attempt.exec answer (fromStack (stack x tail)) = Run.ofOutcome (Term.applyStack x tail) := by
  fun_induction Term.applyStack x tail with
  | case1 x =>
    rw [exec_fromStack_eq]
    simp [fromStackRules]
  | case2 x y tail ih =>
    rw [exec_fromStack_eq, ← ih]
    simp [fromStackRules]
  | case3 x t hnil hstack =>
    have hnil : t ≠ .const .nil := hnil
    rw [exec_fromStack_eq]
    simp [fromStackRules, bind_node_binary_of_ne hstack, hnil]

@[simp] theorem exec_fromStack (s : Term) : Attempt.exec answer (fromStack s) = Run.ofOutcome s.fromStack := by
  unfold Term.fromStack
  split
  · next x tail => exact exec_fromStack_stack x tail
  · next hstack =>
    rw [exec_fromStack_eq]
    simp [fromStackRules, bind_node_binary_of_ne hstack]

/-! ### Substitution -/

theorem refresh_cons (r : String × String) (rs : List (String × String)) (t : Term) :
    refresh (r :: rs) t = mapArgs (fun x => substitute r.1 (.var r.2) x) t >>= refresh rs :=
  List.foldlM_cons ..

section Refresh

variable {k : Nat} {p f e : Term} {pairs : List (String × String)}
  (ih : ∀ n d t, t.size < k → Attempt.exec answer (substitute n d t) = pure (Term.substitute n d t))
include ih

/-- One after the other the new names are put below the binder. None of them is there yet, so this is a renaming. -/
theorem exec_refresh_lambda (hp : p.size < k) (he : e.size < k) (hpn : Term.NewTo pairs p) (hen : Term.NewTo pairs e) :
    (refresh pairs (.lambda p e)).exec answer = pure (.lambda (p.renameAll pairs) (e.renameAll pairs)) := by
  induction pairs generalizing p e with
  | nil => simp [refresh, Term.renameAll]
  | cons r rs ihrs =>
    have hrest := ihrs ((Term.size_rename r.1 r.2 p).trans_lt hp) ((Term.size_rename r.1 r.2 e).trans_lt he)
      hpn.tail hen.tail
    simpa [refresh_cons, ih, hp, he, Term.substitute_var_eq_rename, hpn.head, hen.head,
      Term.renameAll] using hrest

theorem exec_refresh_letrec (hp : p.size < k) (hf : f.size < k) (he : e.size < k) (hpn : Term.NewTo pairs p)
    (hfn : Term.NewTo pairs f) (hen : Term.NewTo pairs e) : (refresh pairs (.letrec p f e)).exec answer =
      pure (.letrec (p.renameAll pairs) (f.renameAll pairs) (e.renameAll pairs)) := by
  induction pairs generalizing p f e with
  | nil => simp [refresh, Term.renameAll]
  | cons r rs ihrs =>
    have hrest := ihrs ((Term.size_rename r.1 r.2 p).trans_lt hp) ((Term.size_rename r.1 r.2 f).trans_lt hf)
      ((Term.size_rename r.1 r.2 e).trans_lt he) hpn.tail hfn.tail hen.tail
    simpa [refresh_cons, ih, hp, hf, he, Term.substitute_var_eq_rename, hpn.head, hfn.head,
      hen.head, Term.renameAll] using hrest

end Refresh

theorem exec_substitute_name (n m : String) (d : Term) :
    Attempt.exec answer (substitute n d (.name m)) = pure (.name m) := by
  rw [exec_substitute_eq]
  simp [replace, Term.layer]

/-- Substitution ends, by induction on the size of the term: what is done below a binder is done to smaller terms, and
renaming does not change their sizes. -/
@[simp] theorem exec_substitute (n : String) (d t : Term) :
    Attempt.exec answer (substitute n d t) = pure (Term.substitute n d t) := by
  induction hk : t.size using Nat.strong_induction_on generalizing n d t with
  | _ k ih =>
    replace ih n d t hu := ih t.size hu n d t rfl
    rw [exec_substitute_eq]
    cases t with
    | name m | const o => simp [replace, Term.layer, Term.substitute]
    | var m =>
      by_cases hm : m = n
      · simp [replace, Term.layer, Term.substitute, Term.isVarNamed, Term.varName?, hm]
      · simp [replace, Term.layer, Term.substitute, Term.isVarNamed, Term.varName?, hm, exec_substitute_name]
    | unary u x =>
      have hx : x.size < k := by simp only [Term.size] at hk; omega
      simp [replace, Term.layer, Term.substitute, ih, hx]
    | binary o x y =>
      have hx : x.size < k := by simp only [Term.size] at hk; omega
      have hy : y.size < k := by simp only [Term.size] at hk; omega
      simp [replace, Term.layer, Term.substitute, ih, hx, hy]
    | lambda p e =>
      have hp : p.size < k := by simp only [Term.size] at hk; omega
      have he : e.size < k := by simp only [Term.size] at hk; omega
      by_cases hn : (Term.lambda p e).count n = 0
      · simp [replace, Term.layer, Term.substitute, hn]
      · have hsub := Term.payloads_subset_lambda p e
        have hrefresh := exec_refresh_lambda ih hp he (Term.newTo_refreshing (d := d) (p := p) hsub.1)
          (Term.newTo_refreshing (d := d) (p := p) hsub.2)
        simp [replace, Term.layer, Term.substitute, hn, hrefresh, ih, hp, he]
    | letrec p f e =>
      have hp : p.size < k := by simp only [Term.size] at hk; omega
      have hf : f.size < k := by simp only [Term.size] at hk; omega
      have he : e.size < k := by simp only [Term.size] at hk; omega
      by_cases hn : (Term.letrec p f e).count n = 0
      · simp [replace, Term.layer, Term.substitute, hn]
      · have hsub := Term.payloads_subset_letrec p f e
        have hrefresh := exec_refresh_letrec ih hp hf he (Term.newTo_refreshing (d := d) (p := p) hsub.1)
          (Term.newTo_refreshing (d := d) (p := p) hsub.2.1) (Term.newTo_refreshing (d := d) (p := p) hsub.2.2)
        simp [replace, Term.layer, Term.substitute, hn, hrefresh, ih, hp, hf, he]

/-! ### Normalization -/

theorem exec_normalizeStack_eq (s : Term) :
    Attempt.exec answer (normalizeStack s) = (evaluate "normalize_stack" normalizeStackRules s).run' () :=
  exec_apply_inContext .normalizeStack s ()

theorem exec_normalizeTail_eq (tail : Term) :
    Attempt.exec answer (normalizeTail tail) = (evaluate "normalize_tail" normalizeTailRules tail).run' () :=
  exec_apply_inContext .normalizeTail tail ()

@[simp] theorem exec_resume (h : Term) (as : List Term) : Attempt.exec answer (resume h (stackAll as (.const .nil))) =
    Attempt.exec answer (normalizeStack (h.toStackOnto as (.const .nil))) := by
  simp [resume, Term.toStackOnto_stackAll]

theorem exec_normalizeTail (has : ∀ a ∈ as, Attempt.exec answer (normalizeStack a.toStack) = pure a.normalize) :
    Attempt.exec answer (normalizeTail (stackAll as (.const .nil))) =
      pure (stackAll (as.map Term.normalize) (.const .nil)) := by
  induction as with
  | nil =>
    rw [exec_normalizeTail_eq]
    simp [normalizeTailRules]
  | cons a as ih =>
    rw [List.forall_mem_cons] at has
    rw [exec_normalizeTail_eq]
    simp [normalizeTailRules, normalize, has.1, ih has.2]

theorem exec_stuck (has : ∀ a ∈ as, Attempt.exec answer (normalizeStack a.toStack) = pure a.normalize) :
    Attempt.exec answer (stuck h (stackAll as (.const .nil))) = pure (h.appAll (as.map Term.normalize)) := by
  have hspine := Term.fromStack_stackAll h (as.map Term.normalize)
  rw [Term.stackAll_cons] at hspine
  simp [stuck, exec_normalizeTail has, hspine]

theorem exec_normalizeStack_of_latticeStep? {h' : Term} {as' : List Term}
    (hs : Term.latticeStep? h as = some (h', as')) :
    Attempt.exec answer (normalizeStack (h.toStackOnto as (.const .nil))) =
      Attempt.exec answer (normalizeStack (h'.toStackOnto as' (.const .nil))) := by
  unfold Term.latticeStep? at hs
  split at hs <;> cases hs
  · simp [exec_normalizeStack_eq, Term.toStackOnto, normalizeStackRules]
  · simp [exec_normalizeStack_eq, Term.toStackOnto, normalizeStackRules]
  · simp [exec_normalizeStack_eq, Term.toStackOnto, normalizeStackRules]
  · next x hx =>
    replace hx : x ≠ .const .top := hx
    simp [exec_normalizeStack_eq, Term.toStackOnto, normalizeStackRules, hx]
  · next hx =>
    replace hx : h' ≠ .const .top := hx
    rw [exec_normalizeStack_eq]
    simp [Term.toStackOnto, normalizeStackRules, continueWithX, hx]
  · next htop hbot =>
    replace htop : h' ≠ .const .top := htop
    replace hbot : h' ≠ .const .bot := hbot
    rw [exec_normalizeStack_eq]
    simp [Term.toStackOnto, normalizeStackRules, continueWithX, htop, hbot]

theorem exec_normalizeStack_of_eta (hn : x.count n = 0) :
    Attempt.exec answer (normalizeStack ((Term.lambda (.var n) (.app x (.var n))).toStackOnto as (.const .nil))) =
      Attempt.exec answer (normalizeStack (x.toStackOnto as (.const .nil))) := by
  rw [exec_normalizeStack_eq]
  simp [Term.toStackOnto, normalizeStackRules, etaRule, eta, hn]

/-- Where the η-law does not hold, its rule does not match or declines. -/
theorem evaluate_etaRule_of_none {name : String} {e tail : Term} {rs : List (Rule (Handler Unit) Term)}
    (he : Term.etaStep? (.lambda (.var n) e) = none) : evaluate name (etaRule :: rs) (stack (.lambda (.var n) e) tail) =
      evaluate name rs (stack (.lambda (.var n) e) tail) := by
  by_cases happ : ∃ x m, e = .app x (.var m)
  · obtain ⟨x, m, rfl⟩ := happ
    have hd : n ≠ m ∨ x.count n ≠ 0 := by
      by_contra hboth
      rw [not_or, not_not, not_not] at hboth
      obtain ⟨rfl, hn⟩ := hboth
      have hsome := Term.etaStep?_eq_some_iff.2 ⟨n, rfl, hn⟩
      cases he.symm.trans hsome
    simp [etaRule, eta, hd]
  · cases e with
    | binary o x y => cases y <;> simp_all [etaRule]
    | _ => simp [etaRule]

section Beta

variable {e a : Term} {bs : List Term} (he : Term.etaStep? (.lambda (.var n) e) = none)
include he

theorem exec_normalizeStack_of_var (m : String) : Attempt.exec answer
    (normalizeStack ((Term.lambda (.var n) e).toStackOnto (.var m :: bs) (.const .nil))) =
      Attempt.exec answer (normalizeStack ((Term.substitute n (.var m) e).toStackOnto bs (.const .nil))) := by
  rw [exec_normalizeStack_eq]
  simp [Term.toStackOnto, normalizeStackRules, evaluate_etaRule_of_none he, betaVar]

theorem exec_normalizeStack_of_isVar_eq_false (ha : a.isVar = false) : Attempt.exec answer
    (normalizeStack ((Term.lambda (.var n) e).toStackOnto (a :: bs) (.const .nil))) =
      (Handling.exec answer
        (betaAffine [("name", .name n), ("x", e), ("y", a), ("tail", stackAll bs (.const .nil))])).run' () := by
  rw [exec_normalizeStack_eq]
  simp [Term.toStackOnto, normalizeStackRules, evaluate_etaRule_of_none he,
    bind_node_var_of_isVar_eq_false ha]

end Beta

theorem exec_normalizeStack_of_headStep? {h' : Term} {as' : List Term} (hs : Term.headStep? h as = some (h', as')) :
    Attempt.exec answer (normalizeStack (h.toStackOnto as (.const .nil))) =
      Attempt.exec answer (normalizeStack (h'.toStackOnto as' (.const .nil))) := by
  rcases Term.headStep?_eq_some_iff.1 hs with hs | ⟨x, hs, hr⟩ | ⟨he, hs⟩
  · exact exec_normalizeStack_of_latticeStep? hs
  · obtain ⟨n, rfl, hn⟩ := Term.etaStep?_eq_some_iff.1 hs
    cases hr
    exact exec_normalizeStack_of_eta hn
  · obtain ⟨n, e, a, bs, rfl, rfl, hc, hr⟩ := Term.betaStep?_eq_some_iff.1 hs
    cases hr
    cases ha : a.isVar with
    | true =>
      obtain ⟨m, rfl⟩ := Term.isVar_eq_true_iff.1 ha
      exact exec_normalizeStack_of_var he m
    | false =>
      have hcount : e.count n = 0 ∨ e.count n = 1 := by
        simp only [ha, Bool.false_eq_true, false_or] at hc
        omega
      rw [exec_normalizeStack_of_isVar_eq_false he ha]
      rcases hcount with hcount | hcount
      · simp [betaAffine, hcount, Term.substitute_of_count_eq_zero hcount]
      · simp [betaAffine, hcount]

/-- A head to which no rule applies stays, and the arguments are normalized. -/
theorem exec_normalizeStack_of_stuck (hs : Term.Stuck h as)
    (hv : ∀ n e y bs, h = .lambda (.var n) e → as = y :: bs → y.normalize.isVar = false)
    (has : ∀ a ∈ as, Attempt.exec answer (normalizeStack a.toStack) = pure a.normalize) :
    Attempt.exec answer (normalizeStack (h.toStackOnto as (.const .nil))) =
      pure (h.appAll (as.map Term.normalize)) := by
  have hstuck := exec_stuck (h := h) has
  cases h with
  | const o =>
    rw [Term.toStackOnto_of_head hs.not_app, exec_normalizeStack_eq]
    by_cases hbound : o = .top ∨ o = .bot
    · obtain rfl := hs.bound o hbound rfl
      rcases hbound with rfl | rfl <;> simp [normalizeStackRules]
    · rw [not_or] at hbound
      simp [normalizeStackRules, etaRule, stuckWithX, hstuck, hbound]
  | binary o x y =>
    rw [Term.toStackOnto_of_head hs.not_app, exec_normalizeStack_eq]
    by_cases hj : o = .join
    · subst hj
      have hsides := hs.join x y rfl
      simp [normalizeStackRules, etaRule, stuckWithX, hstuck, hsides]
    · simp [normalizeStackRules, etaRule, stuckWithX, hstuck, hj]
  | lambda p e =>
    cases hp : p.isVar with
    | false =>
      rw [Term.toStackOnto_of_head hs.not_app, exec_normalizeStack_eq]
      simp [normalizeStackRules, etaRule, stuckWithX, hstuck, bind_node_var_of_isVar_eq_false hp]
    | true =>
      obtain ⟨n, rfl⟩ := Term.isVar_eq_true_iff.1 hp
      have he := (Term.headStep?_eq_none_iff.1 (Term.stuck_iff.1 hs).2).2.1
      cases as with
      | nil =>
        rw [Term.toStackOnto_of_head hs.not_app, exec_normalizeStack_eq]
        simpa [normalizeStackRules, evaluate_etaRule_of_none he, stuckWithX] using hstuck
      | cons a bs =>
        obtain ⟨ha, hc⟩ := hs.beta n e a bs rfl rfl
        obtain ⟨k, hk⟩ := Nat.exists_eq_add_of_le' hc
        have hspine := Term.fromStack_stackAll (.lambda (.var n) e) ((a :: bs).map Term.normalize)
        rw [List.map_cons, Term.stackAll_cons, Term.stackAll_cons] at hspine
        rw [List.forall_mem_cons] at has
        rw [exec_normalizeStack_of_isVar_eq_false he ha]
        simp [betaAffine, hk, normalize, has.1, hv n e a bs rfl rfl, exec_normalizeTail has.2, hspine]
  | name _ | var _ | unary _ _ | letrec _ _ _ =>
    rw [Term.toStackOnto_of_head hs.not_app, exec_normalizeStack_eq]
    simp [normalizeStackRules, etaRule, stuckWithX, hstuck]

theorem exec_normalizeStack_of_copy {m : String} {e y : Term} {bs : List Term}
    (hs : Term.Stuck (.lambda (.var n) e) (y :: bs))
    (hy : Attempt.exec answer (normalizeStack y.toStack) = pure (.var m)) :
    Attempt.exec answer (normalizeStack ((Term.lambda (.var n) e).toStackOnto (y :: bs) (.const .nil))) =
      Attempt.exec answer (normalizeStack ((Term.substitute n (.var m) e).toStackOnto bs (.const .nil))) := by
  obtain ⟨ha, hc⟩ := hs.beta n e y bs rfl rfl
  obtain ⟨k, hk⟩ := Nat.exists_eq_add_of_le' hc
  have he := (Term.headStep?_eq_none_iff.1 (Term.stuck_iff.1 hs).2).2.1
  rw [exec_normalizeStack_of_isVar_eq_false he ha]
  simp [betaAffine, hk, normalize, hy, Term.isVar, Term.varName?]

/-- The tables go by the rules of normalization. -/
theorem exec_normalizeStack (hr : Term.Normalizes h as r) :
    Attempt.exec answer (normalizeStack (h.toStackOnto as (.const .nil))) = pure r := by
  induction hr with
  | app _ ih => exact ih
  | step hs _ ih => rw [exec_normalizeStack_of_headStep? hs, ih]
  | copy hs _ _ ihy ih => rw [exec_normalizeStack_of_copy hs ihy, ih]
  | stuck hs hv _ ih => exact exec_normalizeStack_of_stuck hs hv ih

@[simp] theorem exec_normalize (t : Term) : Attempt.exec answer (normalize t) = pure t.normalize := by
  have h := exec_normalizeStack (Term.normalizes_normalizeSpine t [])
  simpa [normalize, Term.toStack, Term.normalize] using h

end Combinatory.Tables
