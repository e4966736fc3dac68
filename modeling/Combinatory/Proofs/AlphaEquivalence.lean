import Combinatory.Proofs.Canonical
import Combinatory.Proofs.Substitution

/-!
# Canonical forms decide equality up to bound names

Two terms have the same canonical form if and only if they are equal up to the choice of bound names.

## The proof

A form and the names of the binders, from left to right, determine the term (`eq_of_boundNames_eq`). Terms that are
equal up to bound names have one form, so they have equally many binders and the same free variables. The binders
of their canonical forms therefore have the same names: the first ones of one supply.

## What is proved

* `canonical_iff_alphaEq`: which terms have a canonical form, what it is, and when two of them are equal.
-/

namespace Combinatory

open Nameless NameSupply

/-! ### Counting names -/

namespace Nameless

/-- The number of names and variables. -/
def leaves : Nameless → Nat
  | .const _ => 0
  | .name _ | .free _ | .bound _ => 1
  | .unary _ x => x.leaves
  | .binary _ x y => x.leaves + y.leaves
  | .lambda _ p e => p.leaves + e.leaves
  | .letrec _ p d e => p.leaves + d.leaves + e.leaves

/-- The number of names that binders have. -/
def binderLeaves : Nameless → Nat
  | .const _ | .name _ | .free _ | .bound _ => 0
  | .unary _ x => x.binderLeaves
  | .binary _ x y => x.binderLeaves + y.binderLeaves
  | .lambda k _ e => k + e.binderLeaves
  | .letrec k _ d e => k + d.binderLeaves + e.binderLeaves

end Nameless

namespace Term

theorem leaves_nameless (t : Term) (Γ : List String) : (t.nameless Γ).leaves = t.payloads.length := by
  induction t generalizing Γ with
  | name _ | const _ => rfl
  | var n =>
    rw [nameless, resolve]
    split <;> rfl
  | unary _ _ ih => exact ih Γ
  | binary _ _ _ ihx ihy => simp only [nameless, leaves, payloads, List.length_append, ihx, ihy]
  | lambda _ _ ihp ihe => simp only [nameless, leaves, payloads, List.length_append, ihp, ihe]
  | letrec _ _ _ ihp ihd ihe => simp only [nameless, leaves, payloads, List.length_append, ihp, ihd, ihe]

theorem binderLeaves_nameless (t : Term) (Γ : List String) :
    (t.nameless Γ).binderLeaves = t.boundNames.length := by
  induction t generalizing Γ with
  | name _ | const _ => rfl
  | var n =>
    rw [nameless, resolve]
    split <;> rfl
  | unary _ _ ih => exact ih Γ
  | binary _ _ _ ihx ihy => simp only [nameless, binderLeaves, boundNames, List.length_append, ihx, ihy]
  | lambda _ _ _ ihe => simp only [nameless, binderLeaves, boundNames, List.length_append, ihe]
  | letrec _ _ _ _ ihd ihe => simp only [nameless, binderLeaves, boundNames, List.length_append, ihd, ihe]

/-- Terms of one form have equally many names. -/
theorem length_payloads_eq {t u : Term} {Γ Δ : List String} (h : t.nameless Γ = u.nameless Δ) :
    t.payloads.length = u.payloads.length := by
  rw [← leaves_nameless t Γ, ← leaves_nameless u Δ, h]

/-- Terms of one form have equally many names at their binders. -/
theorem length_boundNames_eq {t u : Term} {Γ Δ : List String} (h : t.nameless Γ = u.nameless Δ) :
    t.boundNames.length = u.boundNames.length := by
  rw [← binderLeaves_nameless t Γ, ← binderLeaves_nameless u Δ, h]

/-! ### Form and names determine the term -/

/-- A term is determined by its form, in whatever scope, and its names from left to right. -/
theorem eq_of_payloads_eq {t u : Term} {Γ Δ : List String} (h : t.nameless Γ = u.nameless Δ)
    (hn : t.payloads = u.payloads) : t = u := by
  induction t generalizing u Γ Δ with
  | name n => exact (nameless_eq_name.1 h.symm).symm
  | const o => exact (nameless_eq_const.1 h.symm).symm
  | var n =>
    obtain ⟨m, rfl⟩ := nameless_eq_resolve h.symm
    obtain rfl : n = m := by simpa [payloads] using hn
    rfl
  | unary c x ih =>
    obtain ⟨x', rfl, hx⟩ := nameless_eq_unary.1 h.symm
    rw [ih hx.symm hn]
  | binary b x y ihx ihy =>
    obtain ⟨x', y', rfl, hx, hy⟩ := nameless_eq_binary.1 h.symm
    obtain ⟨hnx, hny⟩ := List.append_inj hn (length_payloads_eq hx.symm)
    rw [ihx hx.symm hnx, ihy hy.symm hny]
  | lambda p e ihp ihe =>
    obtain ⟨q, e', rfl, -, hp, he⟩ := nameless_eq_lambda_iff.1 h.symm
    obtain ⟨hnp, hne⟩ := List.append_inj hn (length_payloads_eq hp.symm)
    rw [ihp hp.symm hnp, ihe he.symm hne]
  | letrec p d e ihp ihd ihe =>
    obtain ⟨q, d', e', rfl, hl, hp, hd, he⟩ := nameless_eq_letrec_iff.1 h.symm
    have hlen : (p.payloads ++ d.payloads).length = (q.payloads ++ d'.payloads).length := by
      rw [List.length_append, List.length_append, hl, length_payloads_eq hd.symm]
    obtain ⟨hnpd, hne⟩ := List.append_inj hn hlen
    obtain ⟨hnp, hnd⟩ := List.append_inj hnpd hl.symm
    rw [ihp hp.symm hnp, ihd hd.symm hnd, ihe he.symm hne]

/-- A term is determined by its form in a scope and the names of its binders from left to right. -/
theorem eq_of_boundNames_eq {t u : Term} {Γ : List String} (h : t.nameless Γ = u.nameless Γ)
    (hn : t.boundNames = u.boundNames) : t = u := by
  induction t generalizing u Γ with
  | name n => exact (nameless_eq_name.1 h.symm).symm
  | const o => exact (nameless_eq_const.1 h.symm).symm
  | var n =>
    obtain ⟨m, rfl⟩ := nameless_eq_resolve h.symm
    rw [resolve_inj h]
  | unary c x ih =>
    obtain ⟨x', rfl, hx⟩ := nameless_eq_unary.1 h.symm
    rw [ih hx.symm hn]
  | binary b x y ihx ihy =>
    obtain ⟨x', y', rfl, hx, hy⟩ := nameless_eq_binary.1 h.symm
    obtain ⟨hnx, hny⟩ := List.append_inj hn (length_boundNames_eq hx.symm)
    rw [ihx hx.symm hnx, ihy hy.symm hny]
  | lambda p e _ ihe =>
    obtain ⟨q, e', rfl, hl, hp, he⟩ := nameless_eq_lambda_iff.1 h.symm
    obtain ⟨hnp, hne⟩ := List.append_inj hn hl.symm
    -- the patterns are equal, so what is below them is in one scope
    obtain rfl := eq_of_payloads_eq hp.symm hnp
    rw [ihe he.symm hne]
  | letrec p d e _ ihd ihe =>
    obtain ⟨q, d', e', rfl, hl, hp, hd, he⟩ := nameless_eq_letrec_iff.1 h.symm
    have hlen : (p.payloads ++ d.boundNames).length = (q.payloads ++ d'.boundNames).length := by
      rw [List.length_append, List.length_append, hl, length_boundNames_eq hd.symm]
    obtain ⟨hnpd, hne⟩ := List.append_inj hn hlen
    obtain ⟨hnp, hnd⟩ := List.append_inj hnpd hl.symm
    obtain rfl := eq_of_payloads_eq hp.symm hnp
    rw [ihd hd.symm hnd, ihe he.symm hne]

/-! ### Canonical forms -/

theorem AlphaEq.freeNames_eq {t u : Term} (h : AlphaEq t u) : t.freeNames = u.freeNames := by
  apply nameSet_congr
  intro n
  rw [← mem_frees_nameless_nil, ← mem_frees_nameless_nil, h]

/-- Equal terms up to bound names have one canonical form. -/
theorem CanonicalForm.eq_of_alphaEq {t u r s : Term} (hr : CanonicalForm t r) (hs : CanonicalForm u s)
    (h : AlphaEq t u) : r = s := by
  have hform : r.nameless [] = s.nameless [] := hr.alphaEq.trans (h.trans hs.alphaEq.symm)
  obtain ⟨_, hgr⟩ := hr.gives
  obtain ⟨_, hgs⟩ := hs.gives
  rw [← h.freeNames_eq] at hgs
  exact eq_of_boundNames_eq hform (hgr.eq_of_length_eq hgs (length_boundNames_eq hform))

theorem CanonicalForm.boundNames_nodup {t r : Term} (h : CanonicalForm t r) : r.boundNames.Nodup := by
  obtain ⟨_, hg⟩ := h.gives
  exact hg.nodup

theorem CanonicalForm.not_mem_freeNames {t r : Term} (h : CanonicalForm t r) {n : String}
    (hn : n ∈ r.boundNames) : n ∉ t.freeNames := by
  obtain ⟨_, hg⟩ := h.gives
  exact fun hf => hg.not_used hn (.inl hf)

/-- **Canonical forms**: a well-formed term has one unless a binder binds a name twice. It is the term up to bound
names, and its bound names differ from each other and from the free ones. Terms have the same canonical form if and
only if they are equal up to bound names. -/
theorem canonical_iff_alphaEq {t : Term} (ht : t.WellFormed) :
    ((∃ r, t.canonical = .ok r) ↔ t.LinearBinders) ∧
      (¬t.LinearBinders → ∃ n, t.canonical = .error (.invalidVariable (.boundTwice n))) ∧
      (∀ r, t.canonical = .ok r → AlphaEq r t ∧ r.boundNames.Nodup ∧ (∀ n ∈ r.boundNames, n ∉ t.freeNames) ∧
        r.freeNames = t.freeNames) ∧
      ∀ u r s, u.WellFormed → t.canonical = .ok r → u.canonical = .ok s → (r = s ↔ AlphaEq t u) := by
  refine ⟨⟨?_, exists_canonical ht⟩, ?_, ?_, ?_⟩
  · rintro ⟨r, hr⟩
    exact (canonicalForm_canonical ht hr).1
  · intro hl
    cases h : t.canonical with
    | ok r => exact absurd (canonicalForm_canonical ht h).1 hl
    | error e =>
      obtain ⟨⟨n, rfl⟩, -⟩ := boundTwice_canonical ht h
      exact ⟨n, rfl⟩
  · intro r hr
    have hform := (canonicalForm_canonical ht hr).2
    exact ⟨hform.alphaEq, hform.boundNames_nodup, fun _ => hform.not_mem_freeNames, hform.alphaEq.freeNames_eq⟩
  · intro u r s hu hr hs
    have hform := (canonicalForm_canonical ht hr).2
    have hform' := (canonicalForm_canonical hu hs).2
    constructor
    · rintro rfl
      exact hform.alphaEq.symm.trans hform'.alphaEq
    · exact hform.eq_of_alphaEq hform'

/-- A pattern of two variables, a definition that shadows one of them, and the free name `a`: the canonical form
is the same, so the terms differ in bound names only. -/
theorem canonical_iff_alphaEq_shadowing :
    AlphaEq
      (.lambda (.join (.var "x") (.var "y"))
        (.letrec (.var "x") (.app (.var "x") (.var "y")) (.app (.var "x") (.var "a"))))
      (.lambda (.join (.var "p") (.var "q"))
        (.letrec (.var "r") (.app (.var "r") (.var "q")) (.app (.var "r") (.var "a")))) := by
  obtain ⟨-, -, -, h⟩ := canonical_iff_alphaEq (t := .lambda (.join (.var "x") (.var "y"))
    (.letrec (.var "x") (.app (.var "x") (.var "y")) (.app (.var "x") (.var "a")))) (by simp [WellFormed])
  have hr := h (.lambda (.join (.var "p") (.var "q"))
      (.letrec (.var "r") (.app (.var "r") (.var "q")) (.app (.var "r") (.var "a"))))
    (.lambda (.join (.var "b") (.var "c"))
      (.letrec (.var "d") (.app (.var "d") (.var "c")) (.app (.var "d") (.var "a"))))
    (.lambda (.join (.var "b") (.var "c"))
      (.letrec (.var "d") (.app (.var "d") (.var "c")) (.app (.var "d") (.var "a"))))
    (by simp [WellFormed]) (by decide +kernel) (by decide +kernel)
  exact hr.1 rfl

end Term

end Combinatory
