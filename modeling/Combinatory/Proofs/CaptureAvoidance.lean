import Combinatory.Proofs.Substitution

/-!
# Capture-avoiding substitution

In the textbooks, the names of binders are chosen such that nothing can be captured, and substitution then goes below
them; terms that differ in the names of binders only are taken to be the same. `Term.substitute` chooses the names on its
way. This module defines the substitution of the textbooks and proves that it has one result up to bound names, the one
that `Term.substitute` computes.

## The model

`Substitutes n d t u` has the equations of the textbooks as its rules. Below a binder it goes only if the pattern has
neither the variable nor a free variable of what is substituted, and `Substitutes.alpha` gives the choice of names. A
binder may bind several names, in whatever positions of its pattern, and the binder of a `LETREC` scopes over the
definition and the body.

## What is proved

* `Substitutes.nameless_eq` — a result of the textbooks has the form of the term with the variable replaced.
* `exists_substitutes` — there is a result if no binder has a binder in its pattern.
* `substitute_avoids_capture` — the results are the terms that `Term.substitute` gives up to bound names, with the free
  variables that they should have.
-/

namespace Combinatory.Term

open Nameless

variable {n : String} {d t u : Term} {Γ : List String}

/-- Substitution as in the textbooks: the result of replacing the variable `n` by `d` in the first term is the second
one. -/
inductive Substitutes (n : String) (d : Term) : Term → Term → Prop where
  | const (o : Const) : Substitutes n d (.const o) (.const o)
  | here : Substitutes n d (.var n) d
  | other {m : String} : m ≠ n → Substitutes n d (.var m) (.var m)
  | unary (c : Unary) {x x' : Term} : Substitutes n d x x' → Substitutes n d (.unary c x) (.unary c x')
  | binary (b : Binary) {x x' y y' : Term} : Substitutes n d x x' → Substitutes n d y y' →
    Substitutes n d (.binary b x y) (.binary b x' y')
  | lambda {p e e' : Term} : n ∉ p.payloads → (∀ m ∈ d.freeOccurrences, m ∉ p.payloads) →
    Substitutes n d e e' → Substitutes n d (.lambda p e) (.lambda p e')
  | letrec {p f f' e e' : Term} : n ∉ p.payloads → (∀ m ∈ d.freeOccurrences, m ∉ p.payloads) →
    Substitutes n d f f' → Substitutes n d e e' → Substitutes n d (.letrec p f e) (.letrec p f' e')
  | alpha {t t' u u' : Term} : AlphaEq t t' → Substitutes n d t' u' → AlphaEq u' u → Substitutes n d t u

/-! ### Forms in a larger scope -/

theorem resolve_append_of_resolve_eq {Ξ Ξ' : List String} {n m : String} (hl : Ξ.length = Ξ'.length)
    (h : resolve Ξ n = resolve Ξ' m) (Γ : List String) : resolve (Ξ ++ Γ) n = resolve (Ξ' ++ Γ) m := by
  by_cases hn : n ∈ Ξ <;> by_cases hm : m ∈ Ξ'
  · simp [resolve, hn, hm] at h
    simp [resolve, hn, hm, List.idxOf_append_of_mem, h]
  · simp [resolve, hn, hm] at h
  · simp [resolve, hn, hm] at h
  · rw [resolve_of_not_mem hn, resolve_of_not_mem hm, Nameless.free.injEq] at h
    exact resolve_append_of_not_mem hl hn hm (h ▸ rfl)

/-- Terms of one form have one form in every larger scope. -/
theorem nameless_append_of_nameless_eq {Ξ Ξ' : List String} (hl : Ξ.length = Ξ'.length)
    (h : t.nameless Ξ = u.nameless Ξ') (Γ : List String) : t.nameless (Ξ ++ Γ) = u.nameless (Ξ' ++ Γ) := by
  induction t generalizing u Ξ Ξ' with
  | name m =>
    rw [nameless_eq_name.1 h.symm]
    rfl
  | const o =>
    rw [nameless_eq_const.1 h.symm]
    rfl
  | var m =>
    obtain ⟨k, rfl⟩ := nameless_eq_resolve h.symm
    exact resolve_append_of_resolve_eq hl h Γ
  | unary c x ih =>
    obtain ⟨x', rfl, hx⟩ := nameless_eq_unary.1 h.symm
    rw [nameless, nameless, ih hl hx.symm]
  | binary b x y ihx ihy =>
    obtain ⟨x', y', rfl, hx, hy⟩ := nameless_eq_binary.1 h.symm
    rw [nameless, nameless, ihx hl hx.symm, ihy hl hy.symm]
  | lambda p e _ ihe =>
    obtain ⟨q, e', rfl, hpq, hp, he⟩ := nameless_eq_lambda_iff.1 h.symm
    have hscope : (p.binders ++ Ξ).length = (q.binders ++ Ξ').length := by simp [hpq, hl]
    have hbody := ihe hscope he.symm
    rw [List.append_assoc, List.append_assoc] at hbody
    rw [nameless, nameless, hpq, hp, hbody]
  | letrec p f e _ ihf ihe =>
    obtain ⟨q, f', e', rfl, hpq, hp, hf, he⟩ := nameless_eq_letrec_iff.1 h.symm
    have hscope : (p.binders ++ Ξ).length = (q.binders ++ Ξ').length := by simp [hpq, hl]
    have hdef := ihf hscope hf.symm
    have hbody := ihe hscope he.symm
    rw [List.append_assoc, List.append_assoc] at hdef hbody
    rw [nameless, nameless, hpq, hp, hdef, hbody]

theorem AlphaEq.nameless_eq (h : AlphaEq t u) (Γ : List String) : t.nameless Γ = u.nameless Γ := by
  have hl : ([] : List String).length = ([] : List String).length := rfl
  exact nameless_append_of_nameless_eq hl h Γ

/-! ### Results of substitution -/

/-- A result has the form of the term with the variable replaced, so it is unique up to bound names. -/
theorem Substitutes.nameless_eq (h : Substitutes n d t u) (hn : n ∉ Γ) (hd : ∀ m ∈ d.freeOccurrences, m ∉ Γ) :
    u.nameless Γ = (t.nameless Γ).subst n (d.nameless []) := by
  -- what is bound around a binder and by it is neither the variable nor free in `d`
  have below {p : Term} {Γ : List String} (hp : n ∉ p.payloads) (hpd : ∀ m ∈ d.freeOccurrences, m ∉ p.payloads)
      (hn : n ∉ Γ) (hd : ∀ m ∈ d.freeOccurrences, m ∉ Γ) :
      n ∉ p.binders ++ Γ ∧ ∀ m ∈ d.freeOccurrences, m ∉ p.binders ++ Γ := by
    refine ⟨by simp [hp, hn], fun m hm => ?_⟩
    simp [hpd m hm, hd m hm]
  induction h generalizing Γ with
  | const o => rfl
  | here =>
    rw [nameless_eq_nil hd, nameless, resolve_of_not_mem hn]
    simp [subst]
  | other hm =>
    rw [subst_of_not_mem]
    rw [mem_frees_nameless]
    simp [freeOccurrences, Ne.symm hm]
  | unary c _ ih =>
    rw [nameless, nameless, ih hn hd]
    rfl
  | binary b _ _ ihx ihy =>
    rw [nameless, nameless, ihx hn hd, ihy hn hd]
    rfl
  | lambda hp hpd _ ihe =>
    obtain ⟨hn', hd'⟩ := below hp hpd hn hd
    rw [nameless, nameless, ihe hn' hd']
    rfl
  | letrec hp hpd _ _ ihf ihe =>
    obtain ⟨hn', hd'⟩ := below hp hpd hn hd
    rw [nameless, nameless, ihf hn' hd', ihe hn' hd']
    rfl
  | alpha ht _ hu ih => rw [← hu.nameless_eq, ih hn hd, ht.nameless_eq]

/-! ### Choice of names -/

/-- A pattern that has the variable can be refreshed too: by what it is renamed by before `d n` is substituted below
it. -/
theorem exists_refreshes {p : Term} (n : String) (d : Term) (hw : p.WellFormed) (hb : p.BinderFree) (ns : List String) :
    ∃ pairs, Refreshes n d pairs p ∧ ∀ r ∈ pairs, r.2 ∉ ns := by
  have hr : Renames (refreshing p (p.payloads ++ ns) (app d (.var n))) p :=
    renames_refreshing hw hb fun m hm => List.mem_append_left _ hm
  have hfree {m : String} (hm : m ∈ (app d (.var n)).freeOccurrences) :
      m ∉ (p.renameAll (refreshing p (p.payloads ++ ns) (app d (.var n)))).payloads :=
    fun h => not_mem_of_mem_refreshed hr h hm
  refine ⟨_, ⟨hr, hfree (by simp [freeOccurrences]), fun m hm => hfree (by simp [freeOccurrences, hm])⟩, fun r h hns => ?_⟩
  exact (refreshing_new h).1 (List.mem_append_right _ hns)

theorem Renames.alphaEq_lambda {pairs : List (String × String)} {p e : Term} (h : Renames pairs p)
    (he : ∀ r ∈ pairs, r.2 ∉ e.payloads) : AlphaEq (.lambda p e) (.lambda (p.renameAll pairs) (e.renameAll pairs)) := by
  rw [AlphaEq, Term.nameless, Term.nameless, h.length, h.nameless_pattern, h.nameless he]

theorem Renames.alphaEq_letrec {pairs : List (String × String)} {p f e : Term} (h : Renames pairs p)
    (hf : ∀ r ∈ pairs, r.2 ∉ f.payloads) (he : ∀ r ∈ pairs, r.2 ∉ e.payloads) :
    AlphaEq (.letrec p f e) (.letrec (p.renameAll pairs) (f.renameAll pairs) (e.renameAll pairs)) := by
  rw [AlphaEq, Term.nameless, Term.nameless, h.length, h.nameless_pattern, h.nameless hf, h.nameless he]

/-- The names of the binders can be chosen such that substitution goes below them. -/
theorem exists_substitutes (n : String) (d : Term) (ht : t.Tidy) : ∃ u, Substitutes n d t u := by
  -- renaming a binder keeps the size of what is below it
  induction hk : t.size using Nat.strongRecOn generalizing t with | ind k ih
  subst hk
  cases t with
  | name m => exact (not_tidy_name m ht).elim
  | const o => exact ⟨_, .const o⟩
  | var m =>
    by_cases hm : m = n
    · subst hm
      exact ⟨d, .here⟩
    · exact ⟨_, .other hm⟩
  | unary c x =>
    obtain ⟨x', hx⟩ := ih x.size (by simp only [size]; omega) (tidy_unary.1 ht) rfl
    exact ⟨_, .unary c hx⟩
  | binary b x y =>
    rw [tidy_binary] at ht
    obtain ⟨x', hx⟩ := ih x.size (by simp only [size]; omega) ht.1 rfl
    obtain ⟨y', hy⟩ := ih y.size (by simp only [size]; omega) ht.2 rfl
    exact ⟨_, .binary b hx hy⟩
  | lambda p e =>
    obtain ⟨⟨hw, hb⟩, he⟩ := tidy_lambda.1 ht
    obtain ⟨pairs, hr, hnew⟩ := exists_refreshes n d hw hb e.payloads
    obtain ⟨e', he'⟩ := ih (e.renameAll pairs).size (by simp only [size, size_renameAll]; omega) (tidy_renameAll.2 he) rfl
    exact ⟨_, .alpha (hr.alphaEq_lambda hnew) (.lambda hr.not_mem hr.captures_not he') rfl⟩
  | letrec p f e =>
    obtain ⟨⟨hw, hb⟩, hf, he⟩ := tidy_letrec.1 ht
    obtain ⟨pairs, hr, hnew⟩ := exists_refreshes n d hw hb (f.payloads ++ e.payloads)
    simp only [List.mem_append, not_or] at hnew
    obtain ⟨f', hf'⟩ := ih (f.renameAll pairs).size (by simp only [size, size_renameAll]; omega) (tidy_renameAll.2 hf) rfl
    obtain ⟨e', he'⟩ := ih (e.renameAll pairs).size (by simp only [size, size_renameAll]; omega) (tidy_renameAll.2 he) rfl
    have hα := hr.alphaEq_letrec (fun r h => (hnew r h).1) fun r h => (hnew r h).2
    exact ⟨_, .alpha hα (.letrec hr.not_mem hr.captures_not hf' he') rfl⟩

/-! ### The computed substitution -/

theorem substitutes_iff_alphaEq (ht : t.Tidy) : Substitutes n d t u ↔ AlphaEq u (substitute n d t) := by
  have form {w : Term} (h : Substitutes n d t w) : AlphaEq w (substitute n d t) := by
    rw [AlphaEq, h.nameless_eq List.not_mem_nil fun _ _ => List.not_mem_nil, nameless_substitute_nil ht]
  constructor
  · exact form
  · intro h
    obtain ⟨w, hw⟩ := exists_substitutes n d ht
    exact .alpha rfl hw ((form hw).trans h.symm)

/-- A variable is free in the result if it was free before and stays, or comes with what is substituted. -/
theorem mem_freeOccurrences_substitute_iff (ht : t.Tidy) {m : String} : m ∈ (substitute n d t).freeOccurrences ↔
    m ∈ t.freeOccurrences ∧ m ≠ n ∨ n ∈ t.freeOccurrences ∧ m ∈ d.freeOccurrences := by
  rw [← mem_frees_nameless_nil, nameless_substitute_nil ht, subst, mem_frees_substAll]
  constructor
  · rintro ⟨k, hk, hm⟩
    rw [mem_frees_nameless_nil] at hk
    by_cases hkn : k = n
    · subst hkn
      rw [Function.update_self, mem_frees_nameless_nil] at hm
      exact .inr ⟨hk, hm⟩
    · rw [Function.update_of_ne hkn, frees, List.mem_singleton] at hm
      subst hm
      exact .inl ⟨hk, hkn⟩
  · rintro (⟨hm, hmn⟩ | ⟨hn, hm⟩)
    · refine ⟨m, mem_frees_nameless_nil.2 hm, ?_⟩
      rw [Function.update_of_ne hmn, frees, List.mem_singleton]
    · refine ⟨n, mem_frees_nameless_nil.2 hn, ?_⟩
      rwa [Function.update_self, mem_frees_nameless_nil]

/-- **Substitution avoids capture**: in a term in which no binder has a binder in its pattern, what is computed is the
result of the substitution of the textbooks, up to bound names, which on nameless forms is the replacement of the
variable. Its free variables are those of the term if the variable is not among them, and otherwise the others of the
term with those of what is substituted. -/
theorem substitute_avoids_capture (n : String) (d : Term) (ht : t.WellFormed) (hs : t.SimpleBinders) :
    (∀ u, Substitutes n d t u ↔ AlphaEq u (substitute n d t)) ∧
      (substitute n d t).nameless [] = (t.nameless []).subst n (d.nameless []) ∧
      (substitute n d t).freeNames =
        if n ∈ t.freeNames then nameSet (t.freeNames.filter (· ≠ n) ++ d.freeNames) else t.freeNames := by
  have htidy : t.Tidy := ⟨ht, hs⟩
  refine ⟨fun u => substitutes_iff_alphaEq htidy, nameless_substitute_nil htidy, ?_⟩
  split
  · next hn =>
    rw [mem_freeNames] at hn
    refine nameSet_congr fun m => ?_
    simp only [mem_freeOccurrences_substitute_iff htidy, hn, true_and, List.mem_append, List.mem_filter, mem_freeNames,
      decide_eq_true_eq]
  · next hn =>
    rw [mem_freeNames, ← count_eq_zero_iff] at hn
    rw [substitute_of_count_eq_zero hn]

/-- Both names of the pattern would capture what is substituted, and the inner binder shadows one of them. -/
theorem substitute_avoids_capture_pattern :
    Substitutes "x" (app (.var "y") (.var "z"))
        (.lambda (join (.var "y") (quote (.var "z")))
          (.letrec (.var "z") (app (.var "z") (.var "x")) (app (.var "y") (.var "x"))))
        (.lambda (join (.var "a") (quote (.var "b")))
          (.letrec (.var "c") (app (.var "c") (app (.var "y") (.var "z")))
            (app (.var "a") (app (.var "y") (.var "z"))))) ∧
      (substitute "x" (app (.var "y") (.var "z"))
        (.lambda (join (.var "y") (quote (.var "z")))
          (.letrec (.var "z") (app (.var "z") (.var "x")) (app (.var "y") (.var "x"))))).freeNames = ["y", "z"] := by
  obtain ⟨hsubst, -, hfree⟩ := substitute_avoids_capture (t := .lambda (join (.var "y") (quote (.var "z")))
    (.letrec (.var "z") (app (.var "z") (.var "x")) (app (.var "y") (.var "x"))))
    "x" (app (.var "y") (.var "z")) (by simp [WellFormed]) (by simp [SimpleBinders, BinderFree])
  refine ⟨(hsubst _).2 ?_, hfree.trans ?_⟩
  · unfold AlphaEq
    decide +kernel
  · decide +kernel

end Combinatory.Term
