import Combinatory.Term.Names
import Mathlib.Data.List.Basic
import Mathlib.Logic.Function.Basic

/-!
# Terms without bound names

Two terms that differ only in the choice of bound names are the same term once every bound variable is written
as a number. This module defines that form, `Nameless`, and the translation of terms to it.

## The model

A scope is the list of the names that are bound around a term, innermost first. `Term.nameless t Γ` is the form
of `t` in the scope `Γ`: a variable of the scope becomes its position in it, any other variable stays a name.
`LAMBDA p e` puts the names of `p` in front of the scope of `e`, the last name of `p` first; `LETREC p d e` does
so for `d` and `e`. The pattern is kept as its form in the scope of its own names, so that the form tells which
leaves of a pattern have the same name, but not which name.

Free variables keep their names, so replacing them (`Nameless.substAll`) needs no shifting and cannot capture: it is
the substitution of the textbooks. `Nameless.instantiate` replaces a bound variable.

`Term.AlphaEq` is equality of the nameless forms.
-/

namespace Combinatory

/-- A term whose bound variables are positions in the scope. -/
inductive Nameless where
  /-- A bare name. -/
  | name (n : String)
  /-- A constant. -/
  | const (o : Const)
  /-- A free variable. -/
  | free (n : String)
  /-- The variable at a position of the scope. -/
  | bound (i : Nat)
  /-- A head with one child. -/
  | unary (u : Unary) (x : Nameless)
  /-- A head with two children. -/
  | binary (b : Binary) (x y : Nameless)
  /-- `LAMBDA p e`, where `p` binds `k` names. -/
  | lambda (k : Nat) (p e : Nameless)
  /-- `LETREC p d e`, where `p` binds `k` names. -/
  | letrec (k : Nat) (p d e : Nameless)
  deriving DecidableEq

namespace Nameless

/-- What a variable is in a scope. -/
def resolve (Γ : List String) (n : String) : Nameless := if n ∈ Γ then .bound (Γ.idxOf n) else .free n

/-- Replaces the free variables. -/
@[simp] def substAll (σ : String → Nameless) : Nameless → Nameless
  | .name n => .name n
  | .const o => .const o
  | .free n => σ n
  | .bound i => .bound i
  | .unary u x => .unary u (x.substAll σ)
  | .binary b x y => .binary b (x.substAll σ) (y.substAll σ)
  | .lambda k p e => .lambda k p (e.substAll σ)
  | .letrec k p d e => .letrec k p (d.substAll σ) (e.substAll σ)

/-- Replaces one free variable. -/
def subst (s : Nameless) (n : String) (a : Nameless) : Nameless := s.substAll (Function.update free n a)

/-- Replaces the variable at a position of the scope. -/
@[simp] def instantiate : Nameless → Nat → Nameless → Nameless
  | .name n, _, _ => .name n
  | .const o, _, _ => .const o
  | .free n, _, _ => .free n
  | .bound i, k, a => if i = k then a else .bound i
  | .unary u x, k, a => .unary u (x.instantiate k a)
  | .binary b x y, k, a => .binary b (x.instantiate k a) (y.instantiate k a)
  | .lambda m p e, k, a => .lambda m p (e.instantiate (m + k) a)
  | .letrec m p d e, k, a => .letrec m p (d.instantiate (m + k) a) (e.instantiate (m + k) a)

/-- No variable points out of the term. -/
def Closed (s : Nameless) : Prop := ∀ k a, s.instantiate k a = s

/-- The free variables, from left to right. -/
@[simp] def frees : Nameless → List String
  | .name _ | .const _ | .bound _ => []
  | .free n => [n]
  | .unary _ x => x.frees
  | .binary _ x y => x.frees ++ y.frees
  | .lambda _ _ e => e.frees
  | .letrec _ _ d e => d.frees ++ e.frees

/-! ### Scopes -/

@[simp] theorem resolve_nil (n : String) : resolve [] n = .free n := by simp [resolve]

@[simp] theorem resolve_cons_self (n : String) (Γ : List String) : resolve (n :: Γ) n = .bound 0 := by
  simp [resolve]

theorem resolve_of_not_mem {Γ : List String} {n : String} (h : n ∉ Γ) : resolve Γ n = .free n := by
  simp [resolve, h]

theorem resolve_cons_of_ne {Γ : List String} {n m : String} (h : n ≠ m) :
    resolve (m :: Γ) n = if n ∈ Γ then .bound (Γ.idxOf n + 1) else .free n := by
  by_cases hn : n ∈ Γ
  · simp [resolve, hn, List.idxOf_cons_ne Γ (Ne.symm h)]
  · simp [resolve, hn, h]

/-- What stands in front of two scopes does not tell them apart. -/
theorem resolve_append_congr {Δ Γ Γ' : List String} {n : String}
    (h : n ∉ Δ → resolve Γ n = resolve Γ' n) : resolve (Δ ++ Γ) n = resolve (Δ ++ Γ') n := by
  by_cases hn : n ∈ Δ
  · simp [resolve, hn, List.idxOf_append_of_mem hn]
  · have h := h hn
    unfold resolve at h ⊢
    by_cases h₁ : n ∈ Γ <;> by_cases h₂ : n ∈ Γ' <;>
      simp_all [List.idxOf_append_of_notMem hn]

/-- What stands in front of two scopes shifts a variable that it does not bind. -/
theorem resolve_append_of_not_mem {Δ Δ' Γ Γ' : List String} {n m : String} (hl : Δ.length = Δ'.length)
    (hn : n ∉ Δ) (hm : m ∉ Δ') (h : resolve Γ n = resolve Γ' m) :
    resolve (Δ ++ Γ) n = resolve (Δ' ++ Γ') m := by
  unfold resolve at h ⊢
  by_cases h₁ : n ∈ Γ <;> by_cases h₂ : m ∈ Γ' <;>
    simp_all [List.idxOf_append_of_notMem]

/-- A scope tells its variables apart. -/
theorem resolve_inj {Γ : List String} {n m : String} (h : resolve Γ n = resolve Γ m) : n = m := by
  unfold resolve at h
  by_cases h₁ : n ∈ Γ <;> by_cases h₂ : m ∈ Γ <;> simp_all [List.idxOf_inj]

/-! ### Replacing variables -/

@[simp] theorem substAll_free (s : Nameless) : s.substAll free = s := by
  induction s <;> simp_all [substAll]

theorem substAll_congr {σ τ : String → Nameless} {s : Nameless} (h : ∀ n ∈ s.frees, σ n = τ n) :
    s.substAll σ = s.substAll τ := by
  induction s with
  | name _ | const _ | bound _ => rfl
  | free n => exact h n (by simp [frees])
  | unary u x ih => rw [substAll, substAll, ih h]
  | binary b x y ihx ihy =>
    simp only [frees, List.mem_append] at h
    rw [substAll, substAll, ihx fun n hn => h n (.inl hn), ihy fun n hn => h n (.inr hn)]
  | lambda k p e _ ihe => rw [substAll, substAll, ihe h]
  | letrec k p d e _ ihd ihe =>
    simp only [frees, List.mem_append] at h
    rw [substAll, substAll, ihd fun n hn => h n (.inl hn), ihe fun n hn => h n (.inr hn)]

/-- A variable that does not occur free is not replaced. -/
theorem subst_of_not_mem {n : String} {a s : Nameless} (h : n ∉ s.frees) : s.subst n a = s := by
  rw [subst, substAll_congr (τ := free), substAll_free]
  intro m hm
  exact Function.update_of_ne (fun e : m = n => h (e ▸ hm)) _ _

theorem mem_frees_substAll {σ : String → Nameless} {s : Nameless} {m : String} :
    m ∈ (s.substAll σ).frees ↔ ∃ n ∈ s.frees, m ∈ (σ n).frees := by
  induction s with
  | name _ | const _ | bound _ | free _ => simp [substAll, frees]
  | unary _ _ ih => exact ih
  | binary _ _ _ ihx ihy => simp only [substAll, frees, List.mem_append, ihx, ihy]; grind
  | lambda _ _ _ _ ihe => exact ihe
  | letrec _ _ _ _ _ ihd ihe => simp only [substAll, frees, List.mem_append, ihd, ihe]; grind

theorem closed_free (n : String) : (free n).Closed := fun _ _ => rfl

theorem closed_const (o : Const) : (const o).Closed := fun _ _ => rfl

theorem closed_update {σ : String → Nameless} {n : String} {a : Nameless} (hσ : ∀ m, (σ m).Closed)
    (ha : a.Closed) (m : String) : (Function.update σ n a m).Closed := by
  by_cases hm : m = n
  · subst hm; simpa using ha
  · simpa [Function.update_of_ne hm] using hσ m

end Nameless

namespace Term

open Nameless

/-- The names that a pattern puts in front of a scope. -/
def binders (p : Term) : List String := p.payloads.reverse

@[simp] theorem mem_binders {p : Term} {n : String} : n ∈ p.binders ↔ n ∈ p.payloads := by simp [binders]

@[simp] theorem length_binders (p : Term) : p.binders.length = p.payloads.length := by simp [binders]

/-- The form of a term in a scope. -/
@[simp] def nameless : Term → List String → Nameless
  | .name n, _ => .name n
  | .const o, _ => .const o
  | .var n, Γ => resolve Γ n
  | .unary u x, Γ => .unary u (x.nameless Γ)
  | .binary b x y, Γ => .binary b (x.nameless Γ) (y.nameless Γ)
  | .lambda p e, Γ => .lambda p.payloads.length (p.nameless p.binders) (e.nameless (p.binders ++ Γ))
  | .letrec p d e, Γ =>
    .letrec p.payloads.length (p.nameless p.binders) (d.nameless (p.binders ++ Γ))
      (e.nameless (p.binders ++ Γ))

theorem nameless_var (n : String) (Γ : List String) : (Term.var n).nameless Γ = resolve Γ n := rfl

theorem nameless_lambda_var (n : String) (e : Term) (Γ : List String) :
    (lambda (.var n) e).nameless Γ = .lambda 1 (.bound 0) (e.nameless (n :: Γ)) := by
  simp [nameless, payloads, binders]

theorem nameless_letrec_var (n : String) (d e : Term) (Γ : List String) :
    (letrec (.var n) d e).nameless Γ = .letrec 1 (.bound 0) (d.nameless (n :: Γ)) (e.nameless (n :: Γ)) := by
  simp [nameless, payloads, binders]

/-- Equality up to the choice of bound names. -/
def AlphaEq (t u : Term) : Prop := t.nameless [] = u.nameless []

/-! ### Terms of a given form -/

/-- What a form tells about a term that has it in the scope. -/
def OfForm (t : Term) (Γ : List String) : Nameless → Prop
  | .name n => t = .name n
  | .const o => t = .const o
  | .free n => t = .var n
  | .bound _ => ∃ n, t = .var n
  | .unary u r => ∃ x, t = .unary u x ∧ x.nameless Γ = r
  | .binary b r s => ∃ x y, t = .binary b x y ∧ x.nameless Γ = r ∧ y.nameless Γ = s
  | .lambda k r s => ∃ p e, t = .lambda p e ∧ p.payloads.length = k ∧
    p.nameless p.binders = r ∧ e.nameless (p.binders ++ Γ) = s
  | .letrec k q r s => ∃ p d e, t = .letrec p d e ∧ p.payloads.length = k ∧
    p.nameless p.binders = q ∧ d.nameless (p.binders ++ Γ) = r ∧ e.nameless (p.binders ++ Γ) = s

theorem ofForm_of_eq {t : Term} {Γ : List String} {s : Nameless} (h : t.nameless Γ = s) : t.OfForm Γ s := by
  subst h
  cases t with
  | name n => exact rfl
  | const o => exact rfl
  | var n =>
    rw [nameless_var, resolve]
    split
    · exact ⟨n, rfl⟩
    · exact rfl
  | unary u x => exact ⟨x, rfl, rfl⟩
  | binary b x y => exact ⟨x, y, rfl, rfl, rfl⟩
  | lambda p e => exact ⟨p, e, rfl, rfl, rfl, rfl⟩
  | letrec p d e => exact ⟨p, d, e, rfl, rfl, rfl, rfl, rfl⟩

section

variable {t : Term} {Γ : List String}

theorem nameless_eq_name {n : String} : t.nameless Γ = .name n ↔ t = .name n := by
  constructor
  · exact ofForm_of_eq
  · rintro rfl
    rfl

theorem nameless_eq_const {o : Const} : t.nameless Γ = .const o ↔ t = .const o := by
  constructor
  · exact ofForm_of_eq
  · rintro rfl
    rfl

theorem nameless_eq_bound {i : Nat} (h : t.nameless Γ = .bound i) : ∃ n, t = .var n := ofForm_of_eq h

theorem nameless_eq_free {n : String} (h : t.nameless Γ = .free n) : t = .var n := ofForm_of_eq h

theorem nameless_eq_resolve {Δ : List String} {n : String} (h : t.nameless Γ = resolve Δ n) :
    ∃ m, t = .var m := by
  unfold resolve at h
  split at h
  · exact nameless_eq_bound h
  · exact ⟨n, nameless_eq_free h⟩

theorem nameless_nil_eq_free {n : String} : t.nameless [] = .free n ↔ t = .var n := by
  constructor
  · exact nameless_eq_free
  · rintro rfl
    exact resolve_nil n

theorem nameless_eq_unary {u : Unary} {r : Nameless} :
    t.nameless Γ = .unary u r ↔ ∃ x, t = .unary u x ∧ x.nameless Γ = r := by
  constructor
  · exact ofForm_of_eq
  · rintro ⟨x, rfl, rfl⟩
    rfl

theorem nameless_eq_binary {b : Binary} {r s : Nameless} :
    t.nameless Γ = .binary b r s ↔ ∃ x y, t = .binary b x y ∧ x.nameless Γ = r ∧ y.nameless Γ = s := by
  constructor
  · exact ofForm_of_eq
  · rintro ⟨x, y, rfl, rfl, rfl⟩
    rfl

theorem nameless_eq_lambda_iff {k : Nat} {r s : Nameless} :
    t.nameless Γ = .lambda k r s ↔ ∃ p e, t = .lambda p e ∧ p.payloads.length = k ∧
      p.nameless p.binders = r ∧ e.nameless (p.binders ++ Γ) = s := by
  constructor
  · exact ofForm_of_eq
  · rintro ⟨p, e, rfl, rfl, rfl, rfl⟩
    rfl

theorem nameless_eq_letrec_iff {k : Nat} {q r s : Nameless} :
    t.nameless Γ = .letrec k q r s ↔ ∃ p d e, t = .letrec p d e ∧ p.payloads.length = k ∧
      p.nameless p.binders = q ∧ d.nameless (p.binders ++ Γ) = r ∧ e.nameless (p.binders ++ Γ) = s := by
  constructor
  · exact ofForm_of_eq
  · rintro ⟨p, d, e, rfl, rfl, rfl, rfl, rfl⟩
    rfl

end

/-- A term of the form of an abstraction is an abstraction. -/
theorem nameless_eq_lambda {t : Term} {s : Nameless} (h : t.nameless [] = .lambda 1 (.bound 0) s) :
    ∃ n e, t = .lambda (.var n) e ∧ e.nameless [n] = s := by
  obtain ⟨p, e, rfl, -, hp, he⟩ := nameless_eq_lambda_iff.1 h
  obtain ⟨n, rfl⟩ := nameless_eq_bound hp
  exact ⟨n, e, rfl, he⟩

theorem nameless_eq_letrec {t : Term} {r s : Nameless} (h : t.nameless [] = .letrec 1 (.bound 0) r s) :
    ∃ n d e, t = .letrec (.var n) d e ∧ d.nameless [n] = r ∧ e.nameless [n] = s := by
  obtain ⟨p, d, e, rfl, -, hp, hd, he⟩ := nameless_eq_letrec_iff.1 h
  obtain ⟨n, rfl⟩ := nameless_eq_bound hp
  exact ⟨n, d, e, rfl, hd, he⟩

/-! ### Free variables -/

theorem mem_freeOccurrences_binary {n : String} {b : Binary} {x y : Term} :
    n ∈ (Term.binary b x y).freeOccurrences ↔ n ∈ x.freeOccurrences ∨ n ∈ y.freeOccurrences :=
  List.mem_append

theorem mem_freeOccurrences_lambda {n : String} {p e : Term} :
    n ∈ (lambda p e).freeOccurrences ↔ n ∈ e.freeOccurrences ∧ n ∉ p.payloads := by
  refine List.mem_filter.trans ?_
  rw [decide_eq_true_iff]

theorem mem_freeOccurrences_letrec {n : String} {p d e : Term} : n ∈ (letrec p d e).freeOccurrences ↔
    (n ∈ d.freeOccurrences ∨ n ∈ e.freeOccurrences) ∧ n ∉ p.payloads := by
  refine List.mem_filter.trans ?_
  rw [List.mem_append, decide_eq_true_iff]

theorem mem_freeOccurrences_lambda_var {n m : String} {e : Term} :
    n ∈ (lambda (.var m) e).freeOccurrences ↔ n ∈ e.freeOccurrences ∧ n ≠ m := by
  rw [mem_freeOccurrences_lambda, payloads, List.mem_singleton]

theorem count_eq_zero_iff {n : String} {t : Term} : t.count n = 0 ↔ n ∉ t.freeOccurrences := by
  have pattern {p : Term} (hp : n ∉ p.payloads) : p.count n = 0 := by
    by_contra h
    exact hp (mem_payloads_of_count_ne_zero h)
  induction t with
  | name _ | const _ => simp [count, freeOccurrences]
  | var m => simp [count, freeOccurrences, eq_comm]
  | unary _ _ ih => exact ih
  | binary _ _ _ ihx ihy => simp [count, freeOccurrences, ihx, ihy]
  | lambda p e _ ihe =>
    by_cases hp : n ∈ p.payloads
    · simp [count, freeOccurrences, hp]
    · simp [count, freeOccurrences, hp, pattern hp, ihe]
  | letrec p d e _ ihd ihe =>
    by_cases hp : n ∈ p.payloads
    · simp [count, freeOccurrences, hp]
    · simp [count, freeOccurrences, hp, pattern hp, ihd, ihe]

/-- The free variables of the form are those that the scope does not bind. -/
theorem mem_frees_nameless {n : String} {t : Term} {Γ : List String} :
    n ∈ (t.nameless Γ).frees ↔ n ∈ t.freeOccurrences ∧ n ∉ Γ := by
  induction t generalizing Γ with
  | name _ | const _ =>
    constructor
    · intro h
      cases h
    · rintro ⟨h, -⟩
      cases h
  | var m =>
    rw [nameless_var]
    by_cases hm : m ∈ Γ
    · simp only [resolve, hm, if_true, frees]
      constructor
      · intro h
        cases h
      · rintro ⟨h, hn⟩
        exact absurd (List.mem_singleton.1 h ▸ hm) hn
    · simp only [resolve_of_not_mem hm, frees]
      exact ⟨fun h => ⟨h, List.mem_singleton.1 h ▸ hm⟩, fun h => h.1⟩
  | unary _ _ ih => exact ih
  | binary _ _ _ ihx ihy =>
    simp only [nameless, frees, List.mem_append, ihx, ihy, mem_freeOccurrences_binary]
    exact or_and_right.symm
  | lambda _ _ _ ihe =>
    simp only [nameless, frees, List.mem_append, ihe, mem_binders, mem_freeOccurrences_lambda, not_or, and_assoc]
  | letrec _ _ _ _ ihd ihe =>
    simp only [nameless, frees, List.mem_append, ihd, ihe, mem_binders, mem_freeOccurrences_letrec]
    rw [← or_and_right, not_or, and_assoc]

theorem mem_frees_nameless_nil {n : String} {t : Term} :
    n ∈ (t.nameless []).frees ↔ n ∈ t.freeOccurrences := by
  simp [mem_frees_nameless]

/-- The form depends on the scope only through the variables that occur free. -/
theorem nameless_congr {t : Term} {Γ Δ : List String}
    (h : ∀ n ∈ t.freeOccurrences, resolve Γ n = resolve Δ n) : t.nameless Γ = t.nameless Δ := by
  induction t generalizing Γ Δ with
  | name _ | const _ => rfl
  | var n => exact h n (List.mem_singleton_self n)
  | unary u x ih => rw [nameless, nameless, ih h]
  | binary b x y ihx ihy =>
    simp only [mem_freeOccurrences_binary] at h
    rw [nameless, nameless, ihx fun n hn => h n (.inl hn), ihy fun n hn => h n (.inr hn)]
  | lambda p e _ ihe =>
    rw [nameless, nameless, ihe]
    intro n hn
    apply resolve_append_congr
    intro hp
    exact h n (mem_freeOccurrences_lambda.2 ⟨hn, mt mem_binders.2 hp⟩)
  | letrec p d e _ ihd ihe =>
    have inner {n : String} (hn : n ∈ d.freeOccurrences ∨ n ∈ e.freeOccurrences) :
        resolve (p.binders ++ Γ) n = resolve (p.binders ++ Δ) n := by
      apply resolve_append_congr
      intro hp
      exact h n (mem_freeOccurrences_letrec.2 ⟨hn, mt mem_binders.2 hp⟩)
    rw [nameless, nameless, ihd fun n hn => inner (.inl hn), ihe fun n hn => inner (.inr hn)]

/-- A scope that binds no variable of a term does not matter to it. -/
theorem nameless_eq_nil {t : Term} {Γ : List String} (h : ∀ n ∈ t.freeOccurrences, n ∉ Γ) :
    t.nameless Γ = t.nameless [] :=
  nameless_congr fun n hn => by rw [resolve_of_not_mem (h n hn), resolve_nil]

/-! ### Replacing variables -/

/-- Positions behind the scope do not occur. -/
theorem instantiate_substAll_nameless {σ : String → Nameless} (hσ : ∀ n, (σ n).Closed) (t : Term)
    {Γ : List String} {k : Nat} (hk : Γ.length ≤ k) (a : Nameless) :
    ((t.nameless Γ).substAll σ).instantiate k a = (t.nameless Γ).substAll σ := by
  induction t generalizing Γ k with
  | name _ | const _ => rfl
  | var n =>
    by_cases hn : n ∈ Γ
    · have := List.idxOf_lt_length_of_mem hn
      simp [nameless, resolve, hn, substAll, instantiate]
      omega
    · simp only [nameless, resolve_of_not_mem hn, substAll]
      exact hσ n k a
  | unary _ _ ih => simp only [nameless, substAll, instantiate, ih hk]
  | binary _ _ _ ihx ihy => simp only [nameless, substAll, instantiate, ihx hk, ihy hk]
  | lambda p e _ ihe =>
    simp only [nameless, substAll, instantiate]
    rw [ihe (by simp; omega)]
  | letrec p d e _ ihd ihe =>
    simp only [nameless, substAll, instantiate]
    rw [ihd (by simp; omega), ihe (by simp; omega)]

theorem closed_substAll_nameless {σ : String → Nameless} (hσ : ∀ n, (σ n).Closed) (t : Term) :
    ((t.nameless []).substAll σ).Closed :=
  fun _ a => t.instantiate_substAll_nameless hσ (Nat.zero_le _) a

/-- Replacing the outermost variable of the scope is replacing its name. -/
theorem instantiate_substAll_nameless_concat {σ : String → Nameless} (hσ : ∀ n, (σ n).Closed) (t : Term)
    (Γ : List String) (n : String) (a : Nameless) :
    ((t.nameless (Γ ++ [n])).substAll σ).instantiate Γ.length a =
      (t.nameless Γ).substAll (Function.update σ n a) := by
  induction t generalizing Γ with
  | name _ | const _ => rfl
  | var m =>
    by_cases hm : m ∈ Γ
    · have := List.idxOf_lt_length_of_mem hm
      simp [nameless, resolve, hm, List.idxOf_append_of_mem hm, substAll, instantiate]
      omega
    · by_cases hmn : m = n
      · subst hmn
        simp [nameless, resolve, hm, List.idxOf_append_of_notMem hm, substAll, instantiate]
      · have hm' : m ∉ Γ ++ [n] := by simp [hm, hmn]
        simp only [nameless, resolve_of_not_mem hm, resolve_of_not_mem hm', substAll,
          Function.update_of_ne hmn]
        exact hσ m _ a
  | unary _ _ ih => simp only [nameless, substAll, instantiate, ih]
  | binary _ _ _ ihx ihy => simp only [nameless, substAll, instantiate, ihx, ihy]
  | lambda p e _ ihe =>
    have := ihe (p.binders ++ Γ)
    simp only [List.append_assoc, List.length_append, length_binders] at this
    simp only [nameless, substAll, instantiate, this]
  | letrec p d e _ ihd ihe =>
    have hd := ihd (p.binders ++ Γ)
    have he := ihe (p.binders ++ Γ)
    simp only [List.append_assoc, List.length_append, length_binders] at hd he
    simp only [nameless, substAll, instantiate, hd, he]

theorem instantiate_substAll_nameless_singleton {σ : String → Nameless} (hσ : ∀ n, (σ n).Closed) (t : Term)
    (n : String) (a : Nameless) :
    ((t.nameless [n]).substAll σ).instantiate 0 a = (t.nameless []).substAll (Function.update σ n a) :=
  instantiate_substAll_nameless_concat hσ t [] n a

theorem instantiate_nameless_singleton (t : Term) (n : String) (a : Nameless) :
    (t.nameless [n]).instantiate 0 a = (t.nameless []).subst n a := by
  simpa [subst] using instantiate_substAll_nameless_singleton closed_free t n a

end Term

end Combinatory
