import Combinatory.Proofs.CodeSubstitution
import Combinatory.Proofs.Decompilation
import Combinatory.Proofs.Unwinding

/-!
# Affine terms

A λ-term whose abstractions use their variables once at most is compiled to code that copies nothing. If the simplified
term has no redex left, then this is what the code is decompiled to (`alphaEq_decompileRaw`).

## The proof

Abstraction is undone by application: the abstraction of `v` from code `c`, applied to `a`, is read as `c` with `a` for
`v` (`Abstracts.readsAs`). Since compilation commutes with substitution, a β-step of the term is followed by its code,
and so is every simplification (`Simplifies.readsAs`). So only terms in normal form are left to be looked at
(`readsBack_normal`): the code of a variable applied to normal arguments unwinds to the variable, and the code of an
abstraction, applied to a new variable, is read as the body. It is read as an abstraction without the new variable, as
the term is no η-redex.
-/

namespace Combinatory

open Nameless

namespace Nameless

/-! ### Affine forms -/

/-- The form of an affine term. -/
def AffineForm : Nameless → Prop
  | .free _ | .bound _ => True
  | .binary .app x y => x.AffineForm ∧ y.AffineForm
  | .lambda k p e => (k = 1 ∧ p = .bound 0) ∧ e.occurrences 0 ≤ 1 ∧ e.AffineForm
  | _ => False

theorem occurrences_substAll {σ : String → Nameless} (hσ : ∀ n k, (σ n).occurrences k = 0) (s : Nameless) (k : Nat) :
    (s.substAll σ).occurrences k = s.occurrences k := by
  induction s generalizing k with
  | name _ | const _ | bound _ => rfl
  | free n => exact hσ n k
  | unary u x ih => exact ih k
  | binary b x y ihx ihy => rw [substAll, occurrences, occurrences, ihx, ihy]
  | lambda m p e _ ihe => exact ihe (m + k)
  | letrec m p d e _ ihd ihe => rw [substAll, occurrences, occurrences, ihd, ihe]

theorem AffineForm.substAll {σ : String → Nameless} (hσ : ∀ n k, (σ n).occurrences k = 0) (hf : ∀ n, (σ n).AffineForm)
    {s : Nameless} (hs : s.AffineForm) : (s.substAll σ).AffineForm := by
  induction s with
  | free n => exact hf n
  | bound _ => trivial
  | binary b x y ihx ihy =>
    cases b with
    | app => exact ⟨ihx hs.1, ihy hs.2⟩
    | comp | join | rand | define | stack | less | nless | equal => exact hs.elim
  | lambda k p e _ ihe => exact ⟨hs.1, occurrences_substAll hσ e 0 ▸ hs.2.1, ihe hs.2.2⟩
  | name _ | const _ | unary _ _ | letrec _ _ _ _ => exact hs.elim

/-- No β-redex and no η-redex is in the form. -/
def BetaEtaNormal : Nameless → Prop
  | .name _ | .const _ | .free _ | .bound _ => True
  | .unary _ x => x.BetaEtaNormal
  | .binary b x y => (b = .app → ∀ e, x ≠ .lambda 1 (.bound 0) e) ∧ x.BetaEtaNormal ∧ y.BetaEtaNormal
  | .lambda k p e => (k = 1 → p = .bound 0 → ¬e.EtaBody) ∧ e.BetaEtaNormal
  | .letrec _ _ d e => d.BetaEtaNormal ∧ e.BetaEtaNormal

end Nameless

namespace Term

variable {U Γ : List String} {v n : String} {t u c d x y : Term}

/-- A λ-term without definitions. -/
inductive PureTerm : Term → Prop where
  | var (n : String) : PureTerm (.var n)
  | app {x y : Term} : PureTerm x → PureTerm y → PureTerm (.app x y)
  | lambda (v : String) {e : Term} : PureTerm e → PureTerm (.lambda (.var v) e)

/-- A λ-term without definitions whose abstractions use their variables once at most. -/
inductive AffineTerm : Term → Prop where
  | var (n : String) : AffineTerm (.var n)
  | app {x y : Term} : AffineTerm x → AffineTerm y → AffineTerm (.app x y)
  | lambda {v : String} {e : Term} : e.count v ≤ 1 → AffineTerm e → AffineTerm (.lambda (.var v) e)

/-- No β-redex and no η-redex is in the term. -/
def BetaEtaNormal (t : Term) : Prop := (t.nameless []).BetaEtaNormal

theorem AffineTerm.pureTerm (h : t.AffineTerm) : t.PureTerm := by
  induction h with
  | var n => exact .var n
  | app _ _ ihx ihy => exact .app ihx ihy
  | lambda _ _ ih => exact .lambda _ ih

theorem PureTerm.lambdaTerm (h : t.PureTerm) : t.LambdaTerm := by
  induction h with
  | var n => trivial
  | app _ _ ihx ihy => exact ⟨ihx, ihy⟩
  | lambda _ _ ih => exact ih

theorem AffineTerm.tidy (h : t.AffineTerm) : t.Tidy := h.pureTerm.lambdaTerm.tidy

theorem AffineTerm.affineForm (h : t.AffineTerm) (Γ : List String) : (t.nameless Γ).AffineForm := by
  induction h generalizing Γ with
  | var n =>
    rw [nameless_var, resolve]
    split <;> trivial
  | app _ _ ihx ihy => exact ⟨ihx Γ, ihy Γ⟩
  | lambda hv _ ih =>
    rw [nameless_lambda_var]
    refine ⟨⟨rfl, rfl⟩, ?_, ih _⟩
    rwa [occurrences_nameless_cons]

theorem affineTerm_of_affineForm (h : (t.nameless Γ).AffineForm) : t.AffineTerm := by
  induction t generalizing Γ with
  | var n => exact .var n
  | binary b x y ihx ihy =>
    cases b with
    | app => exact .app (ihx h.1) (ihy h.2)
    | comp | join | rand | define | stack | less | nless | equal => exact h.elim
  | lambda p e _ ihe =>
    obtain ⟨n, rfl⟩ := nameless_eq_bound h.1.2
    rw [nameless_lambda_var] at h
    refine .lambda ?_ (ihe h.2.2)
    rw [← occurrences_nameless_cons e n Γ]
    exact h.2.1
  | name _ | const _ | unary _ _ | letrec _ _ _ => exact h.elim

theorem occurrences_nameless_of_le (t : Term) {k : Nat} (hk : Γ.length ≤ k) : (t.nameless Γ).occurrences k = 0 := by
  induction t generalizing Γ k with
  | name _ | const _ => rfl
  | var n =>
    rw [nameless_var, resolve]
    split
    · next hn =>
      have := List.idxOf_lt_length_of_mem hn
      exact if_neg (by omega)
    · rfl
  | unary _ x ih => exact ih hk
  | binary _ x y ihx ihy => rw [nameless, occurrences, ihx hk, ihy hk]
  | lambda p e _ ihe => exact ihe (by simp; omega)
  | letrec p d e _ ihd ihe => rw [nameless, occurrences, ihd (by simp; omega), ihe (by simp; omega)]

theorem affineTerm_substitute (hd : d.AffineTerm) (ht : t.AffineTerm) : (substitute n d t).AffineTerm := by
  apply affineTerm_of_affineForm (Γ := [])
  rw [nameless_substitute_nil ht.tidy, subst]
  refine (ht.affineForm []).substAll (fun m k => ?_) fun m => ?_
  · by_cases hm : m = n
    · rw [hm, Function.update_self]
      exact d.occurrences_nameless_of_le (Nat.zero_le k)
    · rw [Function.update_of_ne hm]
      rfl
  · by_cases hm : m = n
    · rw [hm, Function.update_self]
      exact hd.affineForm []
    · rw [Function.update_of_ne hm]
      trivial

theorem Simplifies.affineTerm (h : Simplifies t u) (ht : t.AffineTerm) : u.AffineTerm := by
  refine h.keeps ⟨?_, ?_, ?_, ?_⟩ ht
  · intro x y
    refine ⟨fun h => ?_, fun h => .app h.1 h.2⟩
    obtain _ | ⟨hx, hy⟩ := h
    exact ⟨hx, hy⟩
  · intro x y h
    cases h
  · intro n e h
    obtain _ | _ | ⟨_, he⟩ := h
    exact he
  · intro n e a h ha
    obtain _ | _ | ⟨_, he⟩ := h
    exact affineTerm_substitute ha he

/-! ### Code of pure terms -/

theorem PureTerm.drawable (h : t.PureTerm) (v : String) : t.Drawable v := by
  induction h with
  | var n => trivial
  | app _ _ ihx ihy => exact ⟨ihx, ihy⟩
  | lambda _ _ ih => exact .inr ih

theorem PureTerm.supported (h : t.PureTerm) : t.Supported := by
  induction h with
  | var n => trivial
  | app _ _ ihx ihy => exact ⟨ihx, ihy⟩
  | lambda v he ih => exact ⟨he.drawable v, ih⟩

theorem PureTerm.joinFree (h : t.PureTerm) : Head.binary .join ∉ t.heads := by
  induction h with
  | var n => simp [heads]
  | app _ _ ihx ihy => simp [heads, ihx, ihy]
  | lambda v _ ih => simp [heads, ih]

theorem Abstracts.code (h : Abstracts v c u) (hc : c.Code) : u.Code := by
  have hconst {o : Const} (ho : 0 < o.parameters) : (Term.const o).Code := ho
  induction h with
  | var => exact hconst (by decide)
  | appEta _ => exact hc.1
  | appRight _ _ _ ih => exact ⟨hc.1, ih hc.2⟩
  | appLeft _ _ ih => exact ⟨⟨hconst (by decide), ih hc.1⟩, hc.2⟩
  | appTwice _ ih => exact ⟨hconst (by decide), ih hc.1⟩
  | appBoth _ _ _ ihx ihy => exact ⟨⟨hconst (by decide), ihx hc.1⟩, ihy hc.2⟩
  | compEta _ => exact ⟨hconst (by decide), hc.1⟩
  | compRight _ _ _ ih => exact ⟨⟨hconst (by decide), hc.1⟩, ih hc.2⟩
  | compLeft _ _ ih => exact ⟨⟨hconst (by decide), hc.2⟩, ih hc.1⟩
  | compBoth _ _ ihx ihy => exact ⟨⟨hconst (by decide), hconst (by decide), ihx hc.1⟩, ihy hc.2⟩
  | joinEta | joinRight | joinLeft | joinBoth | randRight | randLeft | randBoth => exact hc.elim

theorem Compiles.code (h : Compiles t c) (ht : t.PureTerm) : c.Code := by
  induction h with
  | var n => trivial
  | binary b _ _ ihx ihy =>
    obtain _ | ⟨hx, hy⟩ := ht
    exact ⟨ihx hx, ihy hy⟩
  | constant _ _ ih =>
    obtain _ | _ | ⟨_, he⟩ := ht
    exact ⟨Nat.zero_lt_two, ih he⟩
  | abstract _ hu ih =>
    obtain _ | _ | ⟨_, he⟩ := ht
    exact hu.code (ih he)
  | name _ | const _ | unary | unused | plain | recursive => cases ht

/-- No occurrence of a variable is lost. -/
theorem Compiles.count_eq (h : Compiles t c) (ht : t.PureTerm) (n : String) : c.count n = t.count n := by
  induction h with
  | var m => rfl
  | binary b _ _ ihx ihy =>
    obtain _ | ⟨hx, hy⟩ := ht
    rw [count, count, ihx hx, ihy hy]
  | @constant v _ _ _ hv ih =>
    obtain _ | _ | ⟨_, he⟩ := ht
    by_cases hn : n = v
    · subst hn
      simp [count, payloads, count_eq_zero_iff.2 hv]
    · simp [count, payloads, hn, Ne.symm hn, ih he]
  | @abstract v _ _ _ _ hu ih =>
    obtain _ | _ | ⟨_, he⟩ := ht
    by_cases hn : n = v
    · simp [hu.count, count, payloads, hn]
    · simp [hu.count, count, payloads, hn, Ne.symm hn, ih he]
  | name _ | const _ | unary | unused | plain | recursive => cases ht

/-! ### Code of affine terms -/

theorem Abstracts.count_pos (h : Abstracts v c u) : 0 < c.count v := by
  rw [Nat.pos_iff_ne_zero, Ne, count_eq_zero_iff, not_not]
  exact h.mem_freeOccurrences

/-- The sides of code in which a variable occurs once at most. -/
theorem count_le_one_of_binary {b : Binary} (h : (Term.binary b x y).count v ≤ 1) : x.count v ≤ 1 ∧ y.count v ≤ 1 := by
  rw [count] at h
  omega

/-- A variable that is abstracted from both sides occurs twice. -/
theorem not_count_le_one {b : Binary} {u' : Term} (hx : Abstracts v x u) (hy : Abstracts v y u') :
    ¬(Term.binary b x y).count v ≤ 1 := by
  have hx := hx.count_pos
  have hy := hy.count_pos
  rw [count]
  omega

theorem Abstracts.affineCode (h : Abstracts v c u) (hc : c.AffineCode U) (hv : c.count v ≤ 1) : u.AffineCode U := by
  have hconst {o : Const} (ho : o ∈ Const.affine) : (Term.const o).AffineCode U := .inr ho
  induction h with
  | var => exact hconst (by decide)
  | appEta _ => exact hc.1
  | appRight _ _ _ ih => exact ⟨hc.1, ih hc.2 (count_le_one_of_binary hv).2⟩
  | appLeft _ _ ih => exact ⟨⟨hconst (by decide), ih hc.1 (count_le_one_of_binary hv).1⟩, hc.2⟩
  | compEta _ => exact ⟨hconst (by decide), hc.1⟩
  | compRight _ _ _ ih => exact ⟨⟨hconst (by decide), hc.1⟩, ih hc.2 (count_le_one_of_binary hv).2⟩
  | compLeft _ _ ih => exact ⟨⟨.inl rfl, hc.2⟩, ih hc.1 (count_le_one_of_binary hv).1⟩
  | appTwice hx => exact absurd hv (not_count_le_one hx .var)
  | appBoth _ hx hy => exact absurd hv (not_count_le_one hx hy)
  | compBoth hx hy => exact absurd hv (not_count_le_one hx hy)
  | joinEta | joinRight | joinLeft | joinBoth | randRight | randLeft | randBoth => exact hc.elim

theorem Compiles.affineCode (h : Compiles t c) (ht : t.AffineTerm) (hU : ∀ n ∈ t.freeOccurrences, n ∈ U) :
    c.AffineCode U := by
  have scope {v : String} {e : Term} {V : List String} (h : ∀ n ∈ (lambda (.var v) e).freeOccurrences, n ∈ V) :
      ∀ n ∈ e.freeOccurrences, n ∈ v :: V := by
    intro n hn
    by_cases hnv : n = v
    · exact hnv ▸ List.mem_cons_self
    · exact List.mem_cons_of_mem v (h n (mem_freeOccurrences_lambda_var.2 ⟨hn, hnv⟩))
  have drop {v : String} {c : Term} {V : List String} (hc : c.AffineCode (v :: V)) (hv : v ∉ c.freeOccurrences) :
      c.AffineCode V :=
    hc.of_subset fun n hn => List.mem_of_ne_of_mem (fun e : n = v => hv (e ▸ hn)) (hc.mem hn)
  induction h generalizing U with
  | var n => exact hU n List.mem_cons_self
  | binary b _ _ ihx ihy =>
    obtain _ | ⟨hx, hy⟩ := ht
    rw [freeOccurrences, List.forall_mem_append] at hU
    exact ⟨ihx hx hU.1, ihy hy hU.2⟩
  | constant _ hv ih =>
    obtain _ | _ | ⟨_, he⟩ := ht
    exact ⟨.inr (by decide), drop (ih he (scope hU)) hv⟩
  | abstract hc hu ih =>
    obtain _ | _ | ⟨hv, he⟩ := ht
    exact drop (hu.affineCode (ih he (scope hU)) ((hc.count_le _).trans hv)) hu.not_mem
  | name _ | const _ | unary | unused | plain | recursive => cases ht

/-! ### Application undoes abstraction -/

theorem readsAs_i (x : Term) : ReadsAs (app (.const .i) x) x := by
  intro U Γ as s h
  apply ReadsBack.unwind (.app _ _ as)
  exact .unwind (.i x as) h

theorem readsAs_k (x y : Term) : ReadsAs (app (app (.const .k) x) y) x := by
  intro U Γ as s h
  apply ReadsBack.unwind (.app _ _ as)
  apply ReadsBack.unwind (.app _ _ _)
  exact .unwind (.k x y as) h

theorem readsAs_b (x y : Term) : ReadsAs (app (app (.const .b) x) y) (comp x y) := by
  intro U Γ as s h
  apply ReadsBack.unwind (.app _ _ as)
  apply ReadsBack.unwind (.app _ _ _)
  exact h.of_unwinds (.comp x y as)

theorem readsAs_c (x y z : Term) : ReadsAs (app (appAll (.const .c) [x, y]) z) (app (app x z) y) := by
  intro U Γ as s h
  apply ReadsBack.unwind (.app _ _ as)
  apply ReadsBack.unwind (.app _ _ _)
  apply ReadsBack.unwind (.app _ _ _)
  apply ReadsBack.unwind (.c x y z as)
  exact (h.of_unwinds (.app _ _ as)).of_unwinds (.app _ _ _)

theorem readsAs_cb (x y : Term) : ReadsAs (app (app (.const .cb) y) x) (comp x y) := by
  intro U Γ as s h
  apply ReadsBack.unwind (.app _ _ as)
  apply ReadsBack.unwind (.app _ _ _)
  apply ReadsBack.unwind (.cb _)
  apply ReadsBack.unwind (.c _ y x as)
  exact h.of_unwinds (.comp x y as)

theorem readsAs_comp (x y z : Term) : ReadsAs (app (comp x y) z) (app x (app y z)) := by
  intro U Γ as s h
  apply ReadsBack.unwind (.app _ _ as)
  apply ReadsBack.unwind (.comp x y _)
  apply ReadsBack.unwind (.b x y z as)
  exact h.of_unwinds (.app _ _ as)

/-- **Application undoes abstraction.** -/
theorem Abstracts.readsAs (h : Abstracts v c u) (hc : c.Code) (hv : c.count v ≤ 1) (a : Term) :
    ReadsAs (app u a) (substitute v a c) := by
  have hfree {x : Term} (hx : v ∉ x.freeOccurrences) : substitute v a x = x :=
    substitute_of_count_eq_zero (count_eq_zero_iff.2 hx)
  have hself : substitute v a (.var v) = a := by rw [substitute, if_pos rfl]
  induction h with
  | var =>
    rw [hself]
    exact readsAs_i a
  | appEta hx =>
    rw [substitute, hfree hx, hself]
    exact .refl _
  | appRight hx _ _ ih =>
    rw [substitute, hfree hx]
    exact (readsAs_comp _ _ a).trans (.app (.refl _) (ih hc.2 (count_le_one_of_binary hv).2))
  | appLeft hy _ ih =>
    rw [substitute, hfree hy]
    exact (readsAs_c _ _ a).trans (.app (ih hc.1 (count_le_one_of_binary hv).1) (.refl _))
  | compEta hx =>
    rw [substitute, hfree hx, hself]
    exact readsAs_b _ a
  | compRight hx _ _ ih =>
    rw [substitute, hfree hx]
    refine (readsAs_comp _ _ a).trans ((readsAs_b _ _).trans ?_)
    exact .comp (.refl _) (ih hc.2 (count_le_one_of_binary hv).2)
  | compLeft hy _ ih =>
    rw [substitute, hfree hy]
    refine (readsAs_comp _ _ a).trans ((readsAs_cb _ _).trans ?_)
    exact .comp (ih hc.1 (count_le_one_of_binary hv).1) (.refl _)
  | appTwice hx => exact absurd hv (not_count_le_one hx .var)
  | appBoth _ hx hy => exact absurd hv (not_count_le_one hx hy)
  | compBoth hx hy => exact absurd hv (not_count_le_one hx hy)
  | joinEta | joinRight | joinLeft | joinBoth | randRight | randLeft | randBoth => exact hc.elim

/-! ### Code follows simplification -/

theorem PureTerm.exists_compiles (h : t.PureTerm) : ∃ c, Compiles t c := h.supported.exists_compiles

/-- The code of a β-redex is read as the code of the contracted term. -/
theorem Compiles.readsAs_beta {e a b : Term} (hu : Compiles (.lambda (.var v) e) u) (ha : Compiles a b)
    (he : (lambda (.var v) e).AffineTerm) (hd : Compiles (Term.substitute v a e) d) : ReadsAs (app u b) d := by
  obtain _ | _ | ⟨hv, he⟩ := he
  have hcode {c : Term} (hc : Compiles e c) : d = Term.substitute v b c :=
    hd.unique (hc.substitute ha he.tidy he.pureTerm.joinFree)
  cases hu with
  | @constant _ _ c hc hvc =>
    rw [hcode hc, substitute_of_count_eq_zero (count_eq_zero_iff.2 hvc)]
    exact readsAs_k c b
  | abstract hc hu =>
    rw [hcode hc]
    exact hu.readsAs (hc.code he.pureTerm) ((hc.count_le v).trans hv) b

/-- **Code follows simplification**: it is read as the code of the simplified term. -/
theorem Simplifies.readsAs (h : Simplifies t u) (ht : t.AffineTerm) (hc : Compiles t c) (hd : Compiles u d) :
    ReadsAs c d := by
  induction h generalizing c d with
  | refl => exact hc.unique hd ▸ .refl c
  | trans h₁ _ ih₁ ih₂ =>
    have hu := h₁.affineTerm ht
    obtain ⟨b, hb⟩ := hu.pureTerm.exists_compiles
    exact (ih₁ ht hc hb).trans (ih₂ hu hb hd)
  | app _ _ ihx ihy =>
    obtain _ | ⟨hx, hy⟩ := ht
    obtain _ | _ | _ | _ | ⟨_, hcx, hcy⟩ := hc
    obtain _ | _ | _ | _ | ⟨_, hdx, hdy⟩ := hd
    exact .app (ihx hx hcx hdx) (ihy hy hcy hdy)
  | topApp | botApp => obtain _ | ⟨⟨⟩, _⟩ := ht
  | topJoin | joinTop | botJoin | joinBot => cases ht
  | @eta n x hn =>
    -- the row for an η-redex gives the code of the function
    have hnd : n ∉ d.freeOccurrences := fun h => count_eq_zero_iff.1 hn (hd.mem_freeOccurrences h)
    have hx : Compiles (.lambda (.var n) (.app x (.var n))) d := .abstract (.binary .app hd (.var n)) (.appEta hnd)
    exact hc.unique hx ▸ .refl c
  | beta n e a =>
    obtain _ | ⟨he, _⟩ := ht
    obtain _ | _ | _ | _ | ⟨_, hu, ha⟩ := hc
    exact hu.readsAs_beta ha he hd

/-! ### Code of normal terms -/

/-- The code of a renamed body. -/
theorem Compiles.rename {e : Term} (hc : Compiles e c) (he : e.AffineTerm) (w : String) :
    Compiles (Term.substitute v (.var w) e) (Term.substitute v (.var w) c) :=
  hc.substitute (.var w) he.tidy he.pureTerm.joinFree

/-- **The code of a normal term is read as the form of the term**, in a spine that makes no new redex. -/
theorem readsBack_normal {as : List Term} {s : Nameless} (ht : t.AffineTerm) (hn : (t.nameless Γ).BetaEtaNormal)
    (hc : Compiles t c) (hU : ∀ n ∈ t.freeOccurrences, n ∈ U)
    (has : ∀ e, t.nameless Γ = .lambda 1 (.bound 0) e → as = []) (hs : ReadsBack U Γ (.form (t.nameless Γ)) as s) :
    ReadsBack U Γ (.code c) as s := by
  induction hsize : t.size using Nat.strongRecOn generalizing t Γ U c as s with | ind k ih
  cases ht with
  | var n =>
    cases hc
    exact .var hs
  | @app x y hx hy =>
    obtain _ | _ | _ | _ | ⟨_, hcx, hcy⟩ := hc
    obtain ⟨hredex, hnx, hny⟩ := hn
    rw [freeOccurrences, List.forall_mem_append] at hU
    have harg := ih y.size (by rw [← hsize, size]; omega) hy hny hcy hU.2 (fun _ _ => rfl) (.done _) rfl
    refine .unwind (.app _ _ as) (ih x.size (by rw [← hsize, size]; omega) hx hnx hcx hU.1 ?_ (.arg harg hs) rfl)
    exact fun e he => absurd he (hredex rfl e)
  | @lambda v e hv he =>
    have hform := nameless_lambda_var v e Γ
    obtain rfl := has _ hform
    obtain ⟨⟩ := hs
    rw [hform] at hn ⊢
    -- the body is read with any new variable for the bound one
    have hbody {b : Term} (hb : Compiles e b) (w : String) (hw : w ∉ U) :
        ReadsBack (w :: U) (w :: Γ) (.code (substitute v (.var w) b)) [] (e.nameless (v :: Γ)) := by
      have hwe : w ∈ e.freeOccurrences → w = v := by
        intro h
        by_contra hne
        exact hw (hU w (mem_freeOccurrences_lambda_var.2 ⟨h, hne⟩))
      have hrenamed : (substitute v (.var w) e).nameless (w :: Γ) = e.nameless (v :: Γ) :=
        nameless_substitute_var he.tidy (Ξ := []) List.not_mem_nil List.not_mem_nil hwe
      refine ih e.size (by rw [← hsize, size]; omega) (affineTerm_substitute (.var w) he) (hrenamed ▸ hn.2)
        (hb.rename he w) ?_ (fun _ _ => rfl) (hrenamed ▸ .done _) (size_substitute_var v w e)
      intro n hn
      rcases mem_freeOccurrences_substitute he.tidy hn with h | ⟨h, hne⟩
      · exact List.mem_singleton.1 h ▸ List.mem_cons_self
      · exact List.mem_cons_of_mem w (hU n (mem_freeOccurrences_lambda_var.2 ⟨h, hne⟩))
    cases hc with
    | @constant _ _ b hb hvb =>
      refine .unwind (.app _ _ _) (.abstract (by decide) Nat.one_lt_two fun w hw => .unwind (.k _ _ _) ?_)
      have h := hbody hb w hw
      rwa [substitute_of_count_eq_zero (count_eq_zero_iff.2 hvb)] at h
    | abstract hb hu =>
      have hcode : c.AffineCode U := Compiles.affineCode (.abstract hb hu) (.lambda hv he) hU
      refine (ReadsBack.abstract_or_eta hcode (List.forall_mem_nil _) fun w hw => ?_).resolve_right (hn.1 rfl rfl)
      have hread := hu.readsAs (hb.code he.pureTerm) ((hb.count_le v).trans hv) (.var w) _ _ _ _ (hbody hb w hw)
      exact hread.of_unwinds (.app _ _ _)

/-- **The code of an affine term is decompiled to the simplified term**, if that is normal. -/
theorem alphaEq_decompileRaw (ht : t.AffineTerm) (hn : t.normalize.BetaEtaNormal) (hc : Compiles t c)
    (hu : c.decompileRaw = .ok u) : AlphaEq u t.normalize := by
  have hs := simplifies_normalize t
  have ht' := hs.affineTerm ht
  obtain ⟨d, hd⟩ := ht'.pureTerm.exists_compiles
  have hnames : ∀ n ∈ t.normalize.freeOccurrences, n ∈ c.names := by
    intro n hn
    have hcount := hc.count_eq ht.pureTerm n
    have hnt : t.count n ≠ 0 := mt count_eq_zero_iff.1 (not_not.2 (hs.mem_freeOccurrences ht.tidy hn))
    exact mem_names.2 (mem_payloads_of_count_ne_zero (hcount ▸ hnt))
  have hread : ReadsBack c.names [] (.code d) [] (t.normalize.nameless []) :=
    readsBack_normal ht' hn hd hnames (fun _ _ => rfl) (.done _)
  have hensures := (hs.readsAs ht hc hd _ _ _ _ hread).ensures (σ := .avoiding c.names) rfl fun n hn => .inl hn
  exact (hensures.of_ok (Prod.ext hu rfl)).2

end Term

end Combinatory
