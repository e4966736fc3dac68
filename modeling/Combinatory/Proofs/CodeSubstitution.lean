import Combinatory.Proofs.BracketAbstraction
import Combinatory.Proofs.DecompilationRules

/-!
# Compilation and the choice of names

Compilation does not depend on the choice of bound names, and commutes with substitution.

## The model

`Matches R c d` says that the code `d` is the code `c` with each variable replaced by code that `R` relates to it. Code
has no binders, so nothing can be captured. `Fills σ Γ Δ` relates a variable to the code of what stands for it: the
variable at the same position of the scope, if it is bound by `Γ`, and otherwise a term of the form that `σ` gives.

Two terms of which one is the other with free variables replaced by `σ` are compiled row by row in the same way. The one
row of the table that looks at code, and not only at variables, is that of a join: it tests whether the abstraction of
a side is `I`. So a replacement that is compiled to `I` makes a difference if there are joins.

## What is proved

* `Abstracts.matches`: abstraction goes by the same rows for code with other variables.
* `Compiles.substAll`: the code of a term with free variables replaced matches the code of the term.
* `compile_iff_alphaEq`: terms that differ in bound names only have the same code.
* `Compiles.substitute`: the code of a substitution is the substitution of the codes.
-/

namespace Combinatory

open Nameless

namespace Term

variable {v w n : String} {t u c d x y : Term}

/-! ### Replacing the variables of code -/

/-- The second code is the first one with each variable replaced by related code. -/
inductive Matches (R : String → Term → Prop) : Term → Term → Prop where
  | name (n : String) : Matches R (.name n) (.name n)
  | const (o : Const) : Matches R (.const o) (.const o)
  | var {n : String} {d : Term} : R n d → Matches R (.var n) d
  | unary (u : Unary) {x x' : Term} : Matches R x x' → Matches R (.unary u x) (.unary u x')
  | binary (b : Binary) {x x' y y' : Term} : Matches R x x' → Matches R y y' →
    Matches R (.binary b x y) (.binary b x' y')

namespace Matches

variable {R S : String → Term → Prop} {x' y' : Term}

theorem app (hx : Matches R x x') (hy : Matches R y y') : Matches R (.app x y) (.app x' y') := .binary _ hx hy

theorem comp (hx : Matches R x x') (hy : Matches R y y') : Matches R (.comp x y) (.comp x' y') := .binary _ hx hy

theorem mono (h : Matches R c d) (hR : ∀ n ∈ c.freeOccurrences, ∀ d, R n d → S n d) : Matches S c d := by
  induction h with
  | name n => exact .name n
  | const o => exact .const o
  | var h => exact .var (hR _ List.mem_cons_self _ h)
  | unary u _ ih => exact .unary u (ih hR)
  | binary b _ _ ihx ihy =>
    rw [freeOccurrences, List.forall_mem_append] at hR
    exact .binary b (ihx hR.1) (ihy hR.2)

theorem mem_freeOccurrences (h : Matches R c d) {m : String} (hm : m ∈ d.freeOccurrences) :
    ∃ n ∈ c.freeOccurrences, ∃ e, R n e ∧ m ∈ e.freeOccurrences := by
  induction h with
  | name _ | const _ => cases hm
  | var h => exact ⟨_, List.mem_cons_self, _, h, hm⟩
  | unary u _ ih => exact ih hm
  | binary b _ _ ihx ihy =>
    rcases mem_freeOccurrences_binary.1 hm with hm | hm
    · obtain ⟨n, hn, he⟩ := ihx hm
      exact ⟨n, mem_freeOccurrences_binary.2 (.inl hn), he⟩
    · obtain ⟨n, hn, he⟩ := ihy hm
      exact ⟨n, mem_freeOccurrences_binary.2 (.inr hn), he⟩

theorem eq_self (h : Matches R c d) (hR : ∀ n e, R n e → e = .var n) : d = c := by
  induction h with
  | name _ | const _ => rfl
  | var h => exact hR _ _ h
  | unary u _ ih => rw [ih]
  | binary b _ _ ihx ihy => rw [ihx, ihy]

/-- Code in which one variable is replaced. -/
theorem eq_substitute (h : Matches R c d) {a : Term} (hv : ∀ e, R v e → e = a)
    (hn : ∀ n e, n ≠ v → R n e → e = .var n) : d = substitute v a c := by
  induction h with
  | name _ | const _ => rw [substitute]
  | @var n e h =>
    rw [substitute]
    split
    · next hnv => exact hv e (hnv ▸ h)
    · next hnv => exact hn n e hnv h
  | unary u _ ih => rw [substitute, ih]
  | binary b _ _ ihx ihy => rw [substitute, ihx, ihy]

theorem of_binary {b : Binary} (h : Matches R (.binary b x y) d) :
    ∃ x' y', d = .binary b x' y' ∧ Matches R x x' ∧ Matches R y y' := by
  cases h with
  | binary _ hx hy => exact ⟨_, _, rfl, hx, hy⟩

theorem eq_const {o : Const} (h : Matches R (.const o) d) : d = .const o := by
  cases h
  rfl

end Matches

/-! ### Abstraction -/

/-- The variable `v` is replaced by the variable `w`, and the others as `S` says, by code that does not have `w`. -/
structure Carries (v w : String) (R S : String → Term → Prop) : Prop where
  /-- `v` is replaced by `w`. -/
  self : ∀ d, R v d → d = .var w
  /-- The others are replaced as `S` says. -/
  other : ∀ n d, n ≠ v → R n d → S n d ∧ w ∉ d.freeOccurrences

section

variable {R S : String → Term → Prop} {x' y' : Term}

theorem Matches.eq_var (hR : Carries v w R S) (h : Matches R (.var v) d) : d = .var w := by
  cases h with
  | var h => exact hR.self d h

theorem Matches.ne_var (hR : Carries v w R S) (h : Matches R x x') (hx : x ≠ .var v) : x' ≠ .var w := by
  rintro rfl
  cases h with
  | @var n _ h =>
    have hn : n ≠ v := fun e => hx (e ▸ rfl)
    exact (hR.other n _ hn h).2 List.mem_cons_self

/-- Code without the variable. -/
theorem Matches.drop (hR : Carries v w R S) (h : Matches R x x') (hv : v ∉ x.freeOccurrences) :
    Matches S x x' ∧ w ∉ x'.freeOccurrences := by
  have hne {n : String} (hn : n ∈ x.freeOccurrences) : n ≠ v := fun e => hv (e ▸ hn)
  refine ⟨h.mono fun n hn d hd => (hR.other n d (hne hn) hd).1, fun hw => ?_⟩
  obtain ⟨n, hn, d, hd, hw⟩ := h.mem_freeOccurrences hw
  exact (hR.other n d (hne hn) hd).2 hw

/-- Code other than `I` does not become `I`, if no variable is replaced by it. -/
theorem Matches.ne_i (h : Matches S x x') (hS : ∀ n, ¬S n (.const .i)) (hx : x ≠ .const .i) : x' ≠ .const .i := by
  rintro rfl
  cases h with
  | const => exact hx rfl
  | var h => exact hS _ h

theorem not_mem_heads_of_binary {a : Head} {b : Binary} (h : a ∉ (Term.binary b x y).heads) :
    a ∉ x.heads ∧ a ∉ y.heads := by
  rw [heads, List.mem_cons, List.mem_append, not_or, not_or] at h
  exact h.2

/-- **Abstraction goes by the same rows** for code with other variables. -/
theorem Abstracts.matches (h : Abstracts v c u) (hR : Carries v w R S) (hc : Matches R c d)
    (hi : ∀ n, S n (.const .i) → Head.binary .join ∉ c.heads) : ∃ u', Abstracts w d u' ∧ Matches S u u' := by
  have left {b : Binary} {x y : Term} (hi : ∀ n, S n (.const .i) → Head.binary .join ∉ (Term.binary b x y).heads) :
      ∀ n, S n (.const .i) → Head.binary .join ∉ x.heads := fun n hn => (not_mem_heads_of_binary (hi n hn)).1
  have right {b : Binary} {x y : Term} (hi : ∀ n, S n (.const .i) → Head.binary .join ∉ (Term.binary b x y).heads) :
      ∀ n, S n (.const .i) → Head.binary .join ∉ y.heads := fun n hn => (not_mem_heads_of_binary (hi n hn)).2
  induction h generalizing d with
  | var =>
    obtain rfl := hc.eq_var hR
    exact ⟨_, .var, .const _⟩
  | appEta hx =>
    obtain ⟨x', y', rfl, mx, my⟩ := hc.of_binary
    obtain rfl := my.eq_var hR
    obtain ⟨mx, hx⟩ := mx.drop hR hx
    exact ⟨_, .appEta hx, mx⟩
  | appRight hx hne _ ih =>
    obtain ⟨x', y', rfl, mx, my⟩ := hc.of_binary
    obtain ⟨mx, hx⟩ := mx.drop hR hx
    obtain ⟨ty, hy, mty⟩ := ih my (right hi)
    exact ⟨_, .appRight hx (my.ne_var hR hne) hy, mx.comp mty⟩
  | appLeft hy _ ih =>
    obtain ⟨x', y', rfl, mx, my⟩ := hc.of_binary
    obtain ⟨my, hy⟩ := my.drop hR hy
    obtain ⟨tx, hx, mtx⟩ := ih mx (left hi)
    exact ⟨_, .appLeft hy hx, ((Matches.const _).app mtx).app my⟩
  | appTwice _ ih =>
    obtain ⟨x', y', rfl, mx, my⟩ := hc.of_binary
    obtain rfl := my.eq_var hR
    obtain ⟨tx, hx, mtx⟩ := ih mx (left hi)
    exact ⟨_, .appTwice hx, (Matches.const _).app mtx⟩
  | appBoth hne _ _ ihx ihy =>
    obtain ⟨x', y', rfl, mx, my⟩ := hc.of_binary
    obtain ⟨tx, hx, mtx⟩ := ihx mx (left hi)
    obtain ⟨ty, hy, mty⟩ := ihy my (right hi)
    exact ⟨_, .appBoth (my.ne_var hR hne) hx hy, ((Matches.const _).app mtx).app mty⟩
  | compEta hx =>
    obtain ⟨x', y', rfl, mx, my⟩ := hc.of_binary
    obtain rfl := my.eq_var hR
    obtain ⟨mx, hx⟩ := mx.drop hR hx
    exact ⟨_, .compEta hx, (Matches.const _).app mx⟩
  | compRight hx hne _ ih =>
    obtain ⟨x', y', rfl, mx, my⟩ := hc.of_binary
    obtain ⟨mx, hx⟩ := mx.drop hR hx
    obtain ⟨ty, hy, mty⟩ := ih my (right hi)
    exact ⟨_, .compRight hx (my.ne_var hR hne) hy, ((Matches.const _).app mx).comp mty⟩
  | compLeft hy _ ih =>
    obtain ⟨x', y', rfl, mx, my⟩ := hc.of_binary
    obtain ⟨my, hy⟩ := my.drop hR hy
    obtain ⟨tx, hx, mtx⟩ := ih mx (left hi)
    exact ⟨_, .compLeft hy hx, ((Matches.const _).app my).comp mtx⟩
  | compBoth _ _ ihx ihy =>
    obtain ⟨x', y', rfl, mx, my⟩ := hc.of_binary
    obtain ⟨tx, hx, mtx⟩ := ihx mx (left hi)
    obtain ⟨ty, hy, mty⟩ := ihy my (right hi)
    exact ⟨_, .compBoth hx hy, ((Matches.const _).app ((Matches.const _).app mtx)).app mty⟩
  | joinEta hx _ ih =>
    obtain ⟨x', y', rfl, mx, my⟩ := hc.of_binary
    obtain ⟨mx, hx⟩ := mx.drop hR hx
    obtain ⟨ty, hy, mty⟩ := ih my (right hi)
    obtain rfl := mty.eq_const
    exact ⟨_, .joinEta hx hy, (Matches.const _).app mx⟩
  | joinRight hx hne _ ih =>
    have hS (n : String) : ¬S n (.const .i) := fun hn => hi n hn List.mem_cons_self
    obtain ⟨x', y', rfl, mx, my⟩ := hc.of_binary
    obtain ⟨mx, hx⟩ := mx.drop hR hx
    obtain ⟨ty, hy, mty⟩ := ih my (right hi)
    exact ⟨_, .joinRight hx (mty.ne_i hS hne) hy, ((Matches.const _).app mx).comp mty⟩
  | joinLeft hy _ ih =>
    obtain ⟨x', y', rfl, mx, my⟩ := hc.of_binary
    obtain ⟨my, hy⟩ := my.drop hR hy
    obtain ⟨tx, hx, mtx⟩ := ih mx (left hi)
    exact ⟨_, .joinLeft hy hx, ((Matches.const _).app my).comp mtx⟩
  | joinBoth _ _ ihx ihy =>
    obtain ⟨x', y', rfl, mx, my⟩ := hc.of_binary
    obtain ⟨tx, hx, mtx⟩ := ihx mx (left hi)
    obtain ⟨ty, hy, mty⟩ := ihy my (right hi)
    exact ⟨_, .joinBoth hx hy, .binary _ mtx mty⟩
  | randRight hx _ ih =>
    obtain ⟨x', y', rfl, mx, my⟩ := hc.of_binary
    obtain ⟨mx, hx⟩ := mx.drop hR hx
    obtain ⟨ty, hy, mty⟩ := ih my (right hi)
    exact ⟨_, .randRight hx hy, ((Matches.const _).app mx).comp mty⟩
  | randLeft hy _ ih =>
    obtain ⟨x', y', rfl, mx, my⟩ := hc.of_binary
    obtain ⟨my, hy⟩ := my.drop hR hy
    obtain ⟨tx, hx, mtx⟩ := ih mx (left hi)
    exact ⟨_, .randLeft hy hx, ((Matches.const _).app my).comp mtx⟩
  | randBoth _ _ ihx ihy =>
    obtain ⟨x', y', rfl, mx, my⟩ := hc.of_binary
    obtain ⟨tx, hx, mtx⟩ := ihx mx (left hi)
    obtain ⟨ty, hy, mty⟩ := ihy my (right hi)
    exact ⟨_, .randBoth hx hy, .binary _ mtx mty⟩

end

/-! ### Scopes -/

/-- A term of closed form has no variable of the scope. -/
theorem not_mem_of_closed {Ξ Γ : List String} (hn : n ∈ t.freeOccurrences) (hΞ : n ∉ Ξ)
    (h : ∀ k a, (t.nameless (Ξ ++ Γ)).instantiate (Ξ.length + k) a = t.nameless (Ξ ++ Γ)) : n ∉ Γ := by
  induction t generalizing Ξ with
  | name _ | const _ => cases hn
  | var m =>
    obtain rfl := List.mem_singleton.1 hn
    intro hm
    have hres : resolve (Ξ ++ Γ) n = .bound (Ξ.length + Γ.idxOf n) := by
      simp [resolve, hm, List.idxOf_append_of_notMem hΞ, Nat.add_comm]
    have hi := h (Γ.idxOf n) (.const .nil)
    rw [nameless_var, hres, instantiate, if_pos rfl] at hi
    cases hi
  | unary u x ih =>
    refine ih hn hΞ fun k a => ?_
    have hi := h k a
    simp only [nameless, instantiate, Nameless.unary.injEq, true_and] at hi
    exact hi
  | binary b x y ihx ihy =>
    have hi (k : Nat) (a : Nameless) := h k a
    simp only [nameless, instantiate, Nameless.binary.injEq, true_and] at hi
    rcases mem_freeOccurrences_binary.1 hn with hn | hn
    · exact ihx hn hΞ fun k a => (hi k a).1
    · exact ihy hn hΞ fun k a => (hi k a).2
  | lambda p e _ ihe =>
    obtain ⟨hn, hp⟩ : n ∈ e.freeOccurrences ∧ n ∉ p.payloads := by simpa [freeOccurrences] using hn
    refine ihe (Ξ := p.binders ++ Ξ) hn (by simp [hp, hΞ]) fun k a => ?_
    have hi := h k a
    simp only [nameless, instantiate, Nameless.lambda.injEq, true_and] at hi
    simpa [Nat.add_assoc] using hi
  | letrec p d e _ ihd ihe =>
    have hi (k : Nat) (a : Nameless) := h k a
    simp only [nameless, instantiate, Nameless.letrec.injEq, true_and] at hi
    obtain ⟨hn, hp⟩ : (n ∈ d.freeOccurrences ∨ n ∈ e.freeOccurrences) ∧ n ∉ p.payloads := by
      simpa [freeOccurrences, or_and_right] using hn
    have hΞ' : n ∉ p.binders ++ Ξ := by simp [hp, hΞ]
    rcases hn with hn | hn
    · exact ihd hn hΞ' fun k a => by simpa [Nat.add_assoc] using (hi k a).1
    · exact ihe hn hΞ' fun k a => by simpa [Nat.add_assoc] using (hi k a).2

/-- A term of closed form has the same form in any scope without its variables. -/
theorem not_mem_scope {Γ : List String} {s : Nameless} (hs : s.Closed) (h : t.nameless Γ = s) :
    ∀ n ∈ t.freeOccurrences, n ∉ Γ := fun n hn =>
  not_mem_of_closed (Ξ := []) hn List.not_mem_nil fun k a => by
    rw [List.nil_append, h]
    exact hs _ a

theorem nameless_nil_of_closed {Γ : List String} {s : Nameless} (hs : s.Closed) (h : t.nameless Γ = s) :
    t.nameless [] = s := by
  rw [← nameless_eq_nil (not_mem_scope hs h), h]

/-- The code of what stands for a variable: the variable at the same position of the scope, or a term of the form that
`σ` gives. -/
def Fills (σ : String → Nameless) (Γ Δ : List String) (n : String) (d : Term) : Prop :=
  ∃ w : Term, w.nameless Δ = (resolve Γ n).substAll σ ∧ Compiles w d

theorem Fills.of_mem {σ : String → Nameless} {Γ Δ : List String} (hn : n ∈ Γ) (h : Fills σ Γ Δ n d) :
    ∃ m, d = .var m ∧ resolve Δ m = .bound (Γ.idxOf n) := by
  obtain ⟨w, hw, hd⟩ := h
  have hres : resolve Γ n = .bound (Γ.idxOf n) := if_pos hn
  rw [hres, Nameless.substAll] at hw
  obtain ⟨m, rfl⟩ := nameless_eq_bound hw
  cases hd
  exact ⟨m, rfl, hw⟩

/-- Below a binder the variable that it binds stands for the one that the other binder binds. -/
theorem carries_fills {σ : String → Nameless} (hσ : ∀ n, (σ n).Closed) (Γ Δ : List String) (v w : String) :
    Carries v w (Fills σ (v :: Γ) (w :: Δ)) (Fills σ Γ Δ) := by
  refine ⟨fun d hd => ?_, fun n d hn hd => ?_⟩
  · obtain ⟨m, rfl, hm⟩ := hd.of_mem List.mem_cons_self
    rw [List.idxOf_cons_self, ← resolve_cons_self w Δ] at hm
    rw [resolve_inj hm]
  · by_cases hΓ : n ∈ Γ
    · -- a variable that is bound further outside
      obtain ⟨m, rfl, hm⟩ := hd.of_mem (List.mem_cons_of_mem v hΓ)
      rw [List.idxOf_cons_ne Γ (Ne.symm hn)] at hm
      have hmw : m ≠ w := by
        rintro rfl
        rw [resolve_cons_self] at hm
        cases hm
      have hΔ : resolve Δ m = .bound (Γ.idxOf n) := by
        rw [resolve_cons_of_ne hmw] at hm
        split at hm
        · next hmem =>
          rw [resolve, if_pos hmem, Nat.succ.inj (Nameless.bound.inj hm)]
        · cases hm
      refine ⟨⟨.var m, ?_, .var m⟩, by simpa [freeOccurrences] using Ne.symm hmw⟩
      rw [nameless_var, hΔ, resolve, if_pos hΓ, Nameless.substAll]
    · -- a free variable
      obtain ⟨x, hx, hd⟩ := hd
      have hcons : n ∉ v :: Γ := by simp [hn, hΓ]
      rw [resolve_of_not_mem hcons, Nameless.substAll] at hx
      have hscope := not_mem_scope (hσ n) hx
      have hw : w ∉ x.freeOccurrences := fun hw => hscope w hw List.mem_cons_self
      refine ⟨⟨x, ?_, hd⟩, fun h => hw (hd.mem_freeOccurrences h)⟩
      rw [resolve_of_not_mem hΓ, Nameless.substAll, nameless_eq_nil, nameless_nil_of_closed (hσ n) hx]
      exact fun m hm hΔ => hscope m hm (List.mem_cons_of_mem w hΔ)

/-! ### Compilation -/

theorem Abstracts.joinFree (h : Abstracts v t u) (ht : Head.binary .join ∉ t.heads) :
    Head.binary .join ∉ u.heads := by
  refine h.keeps (P := fun t => Head.binary .join ∉ t.heads) (H := (· ≠ .join)) (by simp [heads]) (by decide)
    (by decide) ?_ ht
  simp [heads, not_or, eq_comm]

theorem Compiles.joinFree (h : Compiles t c) (ht : Head.binary .join ∉ t.heads) : Head.binary .join ∉ c.heads := by
  induction h with
  | name _ | const _ | var _ => exact ht
  | unary u _ ih =>
    simp only [heads, List.mem_cons, not_or] at ht ⊢
    exact ⟨ht.1, ih ht.2⟩
  | binary b _ _ ihx ihy =>
    simp only [heads, List.mem_cons, List.mem_append, not_or] at ht ⊢
    exact ⟨ht.1, ihx ht.2.1, ihy ht.2.2⟩
  | constant _ _ ih =>
    simp only [heads, List.mem_cons, List.mem_append, not_or] at ht ⊢
    simpa using ih ht.2.2
  | abstract _ hu ih =>
    simp only [heads, List.mem_cons, List.mem_append, not_or] at ht
    exact hu.joinFree (ih ht.2.2)
  | unused _ _ _ _ ihe =>
    simp only [heads, List.mem_cons, List.mem_append, not_or] at ht
    exact ihe ht.2.2.2
  | plain _ _ hu _ ihd ihe =>
    simp only [heads, List.mem_cons, List.mem_append, not_or] at ht ⊢
    exact ⟨by simp, hu.joinFree (ihe ht.2.2.2), ihd ht.2.2.1⟩
  | recursive _ _ hu hw ihd ihe =>
    simp only [heads, List.mem_cons, List.mem_append, not_or] at ht ⊢
    exact ⟨by simp, hu.joinFree (ihe ht.2.2.2), by simp, by simp, hw.joinFree (ihd ht.2.2.1)⟩

/-- Some variable is replaced by a term with the code `I`. -/
def FillsIdentity (σ : String → Nameless) : Prop :=
  ∃ n Δ, ∃ w : Term, w.nameless Δ = σ n ∧ Compiles w (.const .i)

theorem Fills.identity {σ : String → Nameless} {Γ Δ : List String} (h : Fills σ Γ Δ n (.const .i)) :
    FillsIdentity σ := by
  by_cases hn : n ∈ Γ
  · obtain ⟨m, hm, -⟩ := h.of_mem hn
    cases hm
  · obtain ⟨w, hw, hd⟩ := h
    rw [resolve_of_not_mem hn, Nameless.substAll] at hw
    exact ⟨n, Δ, w, hw, hd⟩

theorem eq_lambda_of_substAll {σ : String → Nameless} {Γ Δ : List String} {e : Term}
    (h : u.nameless Δ = ((lambda (.var v) e).nameless Γ).substAll σ) :
    ∃ w e', u = .lambda (.var w) e' ∧ e'.nameless (w :: Δ) = (e.nameless (v :: Γ)).substAll σ := by
  rw [nameless_lambda_var, Nameless.substAll] at h
  obtain ⟨p, e', rfl, -, hp, he⟩ := nameless_eq_lambda_iff.1 h
  obtain ⟨w, rfl⟩ := nameless_eq_bound hp
  exact ⟨w, e', rfl, he⟩

theorem eq_letrec_of_substAll {σ : String → Nameless} {Γ Δ : List String} {d e : Term}
    (h : u.nameless Δ = ((letrec (.var v) d e).nameless Γ).substAll σ) :
    ∃ w d' e', u = .letrec (.var w) d' e' ∧ d'.nameless (w :: Δ) = (d.nameless (v :: Γ)).substAll σ ∧
      e'.nameless (w :: Δ) = (e.nameless (v :: Γ)).substAll σ := by
  rw [nameless_letrec_var, Nameless.substAll] at h
  obtain ⟨p, d', e', rfl, -, hp, hd, he⟩ := nameless_eq_letrec_iff.1 h
  obtain ⟨w, rfl⟩ := nameless_eq_bound hp
  exact ⟨w, d', e', rfl, hd, he⟩

/-- **Compilation of a term with free variables replaced** goes as that of the term, if what replaces them can be
compiled. -/
theorem Compiles.substAll {σ : String → Nameless} (hσ : ∀ n, (σ n).Closed)
    (hok : ∀ n Δ (w : Term), w.nameless Δ = σ n → ∃ d, Compiles w d) (h : Compiles t c)
    (hi : FillsIdentity σ → Head.binary .join ∉ t.heads) {Γ Δ : List String}
    (hu : u.nameless Δ = (t.nameless Γ).substAll σ) : ∃ d, Compiles u d ∧ Matches (Fills σ Γ Δ) c d := by
  -- the code of a part is abstracted from as the code of the part that it is replaced by
  have abstracted {v w : String} {t c d f : Term} {Γ Δ : List String} (ht : Compiles t c)
      (hi : FillsIdentity σ → Head.binary .join ∉ t.heads) (hf : Abstracts v c f)
      (hm : Matches (Fills σ (v :: Γ) (w :: Δ)) c d) : ∃ f', Abstracts w d f' ∧ Matches (Fills σ Γ Δ) f f' :=
    hf.matches (carries_fills hσ Γ Δ v w) hm fun n hn => ht.joinFree (hi hn.identity)
  have inLambda {v : String} {e : Term} (hi : FillsIdentity σ → Head.binary .join ∉ (lambda (.var v) e).heads) :
      FillsIdentity σ → Head.binary .join ∉ e.heads := by
    intro h
    simpa [heads] using hi h
  have inLetrec {v : String} {d e : Term} (hi : FillsIdentity σ → Head.binary .join ∉ (letrec (.var v) d e).heads) :
      (FillsIdentity σ → Head.binary .join ∉ d.heads) ∧ (FillsIdentity σ → Head.binary .join ∉ e.heads) := by
    rw [← forall_and]
    intro h
    simpa [heads] using hi h
  induction h generalizing u Γ Δ with
  | name n =>
    obtain rfl := nameless_eq_name.1 hu
    exact ⟨_, .name n, .name n⟩
  | const o =>
    obtain rfl := nameless_eq_const.1 hu
    exact ⟨_, .const o, .const o⟩
  | var n =>
    have hfill : ∃ d, Compiles u d := by
      by_cases hn : n ∈ Γ
      · rw [nameless_var, resolve, if_pos hn, Nameless.substAll] at hu
        obtain ⟨m, rfl⟩ := nameless_eq_bound hu
        exact ⟨_, .var m⟩
      · rw [nameless_var, resolve_of_not_mem hn, Nameless.substAll] at hu
        exact hok n Δ u hu
    obtain ⟨d, hd⟩ := hfill
    exact ⟨d, hd, .var ⟨u, hu, hd⟩⟩
  | unary o _ ih =>
    obtain ⟨x, rfl, hx⟩ := nameless_eq_unary.1 hu
    obtain ⟨d, hd, hm⟩ := ih (fun h hj => hi h (List.mem_cons_of_mem _ hj)) hx
    exact ⟨_, .unary o hd, .unary o hm⟩
  | binary b _ _ ihx ihy =>
    obtain ⟨x, y, rfl, hx, hy⟩ := nameless_eq_binary.1 hu
    obtain ⟨d, hd, hmd⟩ := ihx (fun h => (not_mem_heads_of_binary (hi h)).1) hx
    obtain ⟨e, he, hme⟩ := ihy (fun h => (not_mem_heads_of_binary (hi h)).2) hy
    exact ⟨_, .binary b hd he, .binary b hmd hme⟩
  | @constant v _ _ _ hv ih =>
    obtain ⟨w, e, rfl, he⟩ := eq_lambda_of_substAll hu
    obtain ⟨d, hd, hm⟩ := ih (inLambda hi) he
    obtain ⟨hm, hw⟩ := hm.drop (carries_fills hσ Γ Δ v w) hv
    exact ⟨_, .constant hd hw, (Matches.const _).app hm⟩
  | abstract hc hf ih =>
    obtain ⟨w, e, rfl, he⟩ := eq_lambda_of_substAll hu
    obtain ⟨d, hd, hm⟩ := ih (inLambda hi) he
    obtain ⟨f, hf, hm⟩ := abstracted hc (inLambda hi) hf hm
    exact ⟨f, .abstract hd hf, hm⟩
  | @unused v _ _ _ _ _ _ hv ihd ihe =>
    obtain ⟨w, d, e, rfl, hd, he⟩ := eq_letrec_of_substAll hu
    obtain ⟨b, hb, -⟩ := ihd (inLetrec hi).1 hd
    obtain ⟨c, hc, hm⟩ := ihe (inLetrec hi).2 he
    obtain ⟨hm, hw⟩ := hm.drop (carries_fills hσ Γ Δ v w) hv
    exact ⟨c, .unused hb hc hw, hm⟩
  | @plain v _ _ _ _ _ _ hce hf hv ihd ihe =>
    obtain ⟨w, d, e, rfl, hd, he⟩ := eq_letrec_of_substAll hu
    obtain ⟨b, hb, hmb⟩ := ihd (inLetrec hi).1 hd
    obtain ⟨c, hc, hmc⟩ := ihe (inLetrec hi).2 he
    obtain ⟨hmb, hw⟩ := hmb.drop (carries_fills hσ Γ Δ v w) hv
    obtain ⟨f, hf, hm⟩ := abstracted hce (inLetrec hi).2 hf hmc
    exact ⟨_, .plain hb hc hf hw, hm.app hmb⟩
  | recursive hcd hce hf hg ihd ihe =>
    obtain ⟨w, d, e, rfl, hd, he⟩ := eq_letrec_of_substAll hu
    obtain ⟨b, hb, hmb⟩ := ihd (inLetrec hi).1 hd
    obtain ⟨c, hc, hmc⟩ := ihe (inLetrec hi).2 he
    obtain ⟨f, hf, hmf⟩ := abstracted hce (inLetrec hi).2 hf hmc
    obtain ⟨g, hg, hmg⟩ := abstracted hcd (inLetrec hi).1 hg hmb
    exact ⟨_, .recursive hb hc hf hg, hmf.app ((Matches.const _).app hmg)⟩

/-! ### Bound names -/

theorem Fills.eq_var {Γ Δ : List String} (h : Fills .free Γ Δ n d) (hn : n ∉ Γ) : d = .var n := by
  obtain ⟨w, hw, hc⟩ := h
  rw [resolve_of_not_mem hn, substAll_free] at hw
  obtain rfl := nameless_eq_free hw
  cases hc
  rfl

theorem not_fillsIdentity_free : ¬FillsIdentity .free := by
  rintro ⟨n, Δ, w, hw, hc⟩
  obtain rfl := nameless_eq_free hw
  cases hc

/-- Terms that differ in bound names only have the same code. -/
theorem Compiles.of_alphaEq (h : Compiles t c) (htu : AlphaEq t u) : Compiles u c := by
  have hok (n : String) (Δ : List String) (w : Term) (hw : w.nameless Δ = .free n) : ∃ d, Compiles w d := by
    obtain rfl := nameless_eq_free hw
    exact ⟨_, .var n⟩
  have hu : u.nameless [] = (t.nameless []).substAll .free := htu.symm.trans (substAll_free _).symm
  obtain ⟨d, hd, hm⟩ := h.substAll closed_free hok (fun h => (not_fillsIdentity_free h).elim) hu
  obtain rfl := hm.eq_self fun n e he => he.eq_var List.not_mem_nil
  exact hd

/-- **Compilation does not depend on the choice of bound names**: terms that differ in them have the same code, and
one of them has no code if the other has none. -/
theorem compile_iff_alphaEq (h : AlphaEq t u) (c : Term) : t.compile = .ok c ↔ u.compile = .ok c := by
  rw [compile_eq_ok_iff, compile_eq_ok_iff]
  exact ⟨fun hc => hc.of_alphaEq h, fun hc => hc.of_alphaEq h.symm⟩

/-- `LAMBDA x. LETREC y (x y) (LAMBDA x. JOIN z (x y))`, which binds `x` twice, and the same term with names that
differ. -/
theorem compile_iff_alphaEq_shadowing :
    (Term.lambda (.var "a") (.letrec (.var "b") (app (.var "a") (.var "b"))
        (.lambda (.var "c") (join (.var "z") (app (.var "c") (.var "b")))))).compile =
      .ok (comp (comp (app (.const .b) (app (.const .j) (.var "z"))) (app (.const .c) (.const .i))) (.const .y)) := by
  refine (compile_iff_alphaEq (t := .lambda (.var "x") (.letrec (.var "y") (app (.var "x") (.var "y"))
    (.lambda (.var "x") (join (.var "z") (app (.var "x") (.var "y")))))) (by unfold AlphaEq; decide) _).1 ?_
  decide

/-! ### Substitution -/

theorem closed_nameless (t : Term) : (t.nameless []).Closed := by
  have h := closed_substAll_nameless closed_free t
  rwa [substAll_free] at h

theorem Compiles.unique (hc : Compiles t c) (hd : Compiles t d) : c = d :=
  Except.ok.inj (hc.compile.symm.trans hd.compile)

/-- **Compilation commutes with substitution**, where there are no joins. -/
theorem Compiles.substitute {a e : Term} (he : Compiles e c) (ha : Compiles a d) (ht : e.Tidy)
    (hj : Head.binary .join ∉ e.heads) : Compiles (substitute v a e) (substitute v d c) := by
  have self {Δ : List String} {w : Term} (hw : w.nameless Δ = Function.update free v (a.nameless []) v) :
      Compiles w d := by
    rw [Function.update_self] at hw
    have hwa : AlphaEq w a := nameless_nil_of_closed a.closed_nameless hw
    exact ha.of_alphaEq hwa.symm
  have other {n : String} {Δ : List String} {w : Term} (hn : n ≠ v)
      (hw : w.nameless Δ = Function.update free v (a.nameless []) n) : Compiles w (.var n) := by
    rw [Function.update_of_ne hn] at hw
    obtain rfl := nameless_eq_free hw
    exact .var n
  have hok (n : String) (Δ : List String) (w : Term) (hw : w.nameless Δ = Function.update free v (a.nameless []) n) :
      ∃ d, Compiles w d := by
    by_cases hn : n = v
    · exact ⟨d, self (hn ▸ hw)⟩
    · exact ⟨_, other hn hw⟩
  obtain ⟨f, hf, hm⟩ := he.substAll (closed_update closed_free a.closed_nameless) hok (fun _ => hj)
    (nameless_substitute_nil ht)
  have heq : f = Term.substitute v d c := by
    apply hm.eq_substitute
    · rintro g ⟨w, hw, hg⟩
      rw [resolve_nil] at hw
      exact hg.unique (self hw)
    · rintro n g hn ⟨w, hw, hg⟩
      rw [resolve_nil] at hw
      exact hg.unique (other hn hw)
  rwa [heq] at hf

end Term

end Combinatory
