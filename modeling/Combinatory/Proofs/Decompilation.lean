import Combinatory.Proofs.Adequacy
import Combinatory.Proofs.Canonical
import Combinatory.Proofs.DecompilationRules
import Combinatory.Proofs.Normalization

/-!
# Behaviour of decompiled code

What combinator code can be seen to do, the λ-term that it is decompiled to does too, if `Y` is read as a fixed
point that is taken once it is applied: `Y x` becomes `LETREC y (LAMBDA z. x (y z)) y`. Read as `x (Y x)`, the
reading of compilation, it fails.

## The proof

The rules of `Decompiles` keep the meaning of code (`Decompiles.sameMeaning`). What is contracted goes by the laws of
the combinators. A combinator that lacks an operand is a function, so the code applied to a new variable may be taken
instead. A part that is shared has its value under the name that is left for it.

Simplification may add to the meaning, since `LAMBDA x. f x` becomes `f`. It takes nothing away.

## What is proved

* `reduces_decompile`: the decompiled term reduces to each variable that the code reduces to, and before it is
  simplified to no other.
* `not_reduces_decompile_fixpoint`: the same fails if `Y x` is contracted to `x (Y x)`.
-/

namespace Combinatory

open Value Nameless

/-! ### λ-terms -/

namespace Nameless

/-- The forms of λ-terms. -/
def LambdaForm : Nameless → Prop
  | .free _ | .bound _ => True
  | .binary .app x y => x.LambdaForm ∧ y.LambdaForm
  | .lambda k p e => (k = 1 ∧ p = .bound 0) ∧ e.LambdaForm
  | .letrec k p d e => (k = 1 ∧ p = .bound 0) ∧ d.LambdaForm ∧ e.LambdaForm
  | _ => False

theorem LambdaForm.substAll {σ : String → Nameless} (hσ : ∀ n, (σ n).LambdaForm) {s : Nameless}
    (h : s.LambdaForm) : (s.substAll σ).LambdaForm := by
  induction s with
  | free n => exact hσ n
  | bound i => trivial
  | binary b x y ihx ihy =>
    cases b with
    | app => exact ⟨ihx h.1, ihy h.2⟩
    | comp | join | rand | define | stack | less | nless | equal => exact h.elim
  | lambda k p e _ ihe => exact ⟨h.1, ihe h.2⟩
  | letrec k p d e _ ihd ihe => exact ⟨h.1, ihd h.2.1, ihe h.2.2⟩
  | name _ | const _ | unary _ _ => exact h.elim

end Nameless

namespace Term

theorem lambdaForm_nameless {t : Term} {Γ : List String} : (t.nameless Γ).LambdaForm ↔ t.LambdaTerm := by
  induction t generalizing Γ with
  | name _ | const _ | unary _ _ => exact Iff.rfl
  | var n =>
    rw [nameless_var, resolve]
    split <;> exact Iff.rfl
  | binary b x y ihx ihy =>
    cases b with
    | app => exact and_congr ihx ihy
    | comp | join | rand | define | stack | less | nless | equal => exact Iff.rfl
  | lambda p e _ ihe =>
    by_cases hp : ∃ n, p = .var n
    · obtain ⟨n, rfl⟩ := hp
      rw [nameless_lambda_var]
      exact (and_iff_right ⟨rfl, rfl⟩).trans ihe
    · refine iff_of_false (fun h => hp (nameless_eq_bound h.1.2)) fun h => ?_
      cases p with
      | var n => exact hp ⟨n, rfl⟩
      | name _ | const _ | unary _ _ | binary _ _ _ | lambda _ _ | letrec _ _ _ => exact h
  | letrec p d e _ ihd ihe =>
    by_cases hp : ∃ n, p = .var n
    · obtain ⟨n, rfl⟩ := hp
      rw [nameless_letrec_var]
      exact (and_iff_right ⟨rfl, rfl⟩).trans (and_congr ihd ihe)
    · refine iff_of_false (fun h => hp (nameless_eq_bound h.1.2)) fun h => ?_
      cases p with
      | var n => exact hp ⟨n, rfl⟩
      | name _ | const _ | unary _ _ | binary _ _ _ | lambda _ _ | letrec _ _ _ => exact h

theorem LambdaTerm.tidy {t : Term} (h : t.LambdaTerm) : t.Tidy := by
  induction h using LambdaTerm.induction with
  | var n => exact tidy_var n
  | app _ _ ihx ihy => exact tidy_binary.2 ⟨ihx, ihy⟩
  | lambda n _ ihe => exact tidy_lambda.2 ⟨⟨trivial, trivial⟩, ihe⟩
  | letrec n _ _ ihd ihe => exact tidy_letrec.2 ⟨⟨trivial, trivial⟩, ihd, ihe⟩

theorem lambdaTerm_substitute {n : String} {d t : Term} (hd : d.LambdaTerm) (ht : t.LambdaTerm) :
    (substitute n d t).LambdaTerm := by
  rw [← lambdaForm_nameless (Γ := []), nameless_substitute_nil ht.tidy, subst]
  refine LambdaForm.substAll (fun m => ?_) (lambdaForm_nameless.2 ht)
  by_cases hm : m = n
  · subst hm
    rw [Function.update_self]
    exact lambdaForm_nameless.2 hd
  · rw [Function.update_of_ne hm]
    trivial

theorem AlphaEq.lambdaTerm {t u : Term} (h : AlphaEq t u) (ht : t.LambdaTerm) : u.LambdaTerm := by
  rw [← lambdaForm_nameless (Γ := []), ← h]
  exact lambdaForm_nameless.2 ht

theorem Simplifies.lambdaTerm {t u : Term} (h : Simplifies t u) (ht : t.LambdaTerm) : u.LambdaTerm :=
  h.keeps ⟨Iff.rfl, False.elim, id, fun he ha => lambdaTerm_substitute ha he⟩ ht

/-- Simplification loses nothing of the meaning. -/
theorem Simplifies.meaning_le {yv : Value} {t u : Term} (h : Simplifies t u) (ht : t.LambdaTerm)
    (ρ : String → Value) : t.meaning yv ρ ≤ u.meaning yv ρ := by
  induction h with
  | refl => exact le_rfl
  | trans h₁ _ ih₁ ih₂ => exact (ih₁ ht).trans (ih₂ (h₁.lambdaTerm ht))
  | app _ _ ihx ihy => exact app_mono (ihx ht.1) (ihy ht.2)
  | topApp | botApp => exact ht.1.elim
  | topJoin | joinTop | botJoin | joinBot => exact ht.elim
  | @eta n x hn =>
    have hn := count_eq_zero_iff.1 hn
    rw [meaning_lambda]
    refine le_trans (lam_mono fun z => ?_) (lam_app_le _)
    rw [meaning_app, meaning_var, Function.update_self, meaning_update_of_not_mem hn]
  | beta n e a =>
    have he : e.LambdaTerm := ht.1
    rw [meaning_substitute he.tidy, meaning_app, meaning_lambda, app_lam (e.finitary_meaning n)]

end Term

/-! ### Code and its meaning -/

/-- With how many arguments a combinator is contracted; other constants have no such number. -/
def Const.parameters : Const → Nat
  | .i | .y => 1
  | .k | .ci | .w => 2
  | .b | .c | .cb | .s => 3
  | _ => 0

namespace Term

/-- Variables, combinators, applications and compositions. -/
def Code : Term → Prop
  | .var _ => True
  | .const o => 0 < o.parameters
  | .app x y | .comp x y => x.Code ∧ y.Code
  | _ => False

/-- The terms mean the same, with delayed fixed points. -/
def SameMeaning (t u : Term) : Prop :=
  ∀ ρ, t.meaning delayedFixpointValue ρ = u.meaning delayedFixpointValue ρ

/-- The value is that of a function. -/
def Functional (t : Term) : Prop :=
  ∀ ρ, t.meaning delayedFixpointValue ρ = lam (Value.app (t.meaning delayedFixpointValue ρ))

namespace SameMeaning

theorem refl (t : Term) : SameMeaning t t := fun _ => rfl

theorem trans {t u w : Term} (h : SameMeaning t u) (h' : SameMeaning u w) : SameMeaning t w :=
  fun ρ => (h ρ).trans (h' ρ)

theorem app {x x' y y' : Term} (hx : SameMeaning x x') (hy : SameMeaning y y') :
    SameMeaning (.app x y) (.app x' y') :=
  fun ρ => congrArg₂ Value.app (hx ρ) (hy ρ)

theorem appAll {t u : Term} (h : SameMeaning t u) (as : List Term) : SameMeaning (t.appAll as) (u.appAll as) :=
  rel_appAll .app .refl h as

theorem law {t u : Term} (h : CombinatorLaw t u) : SameMeaning t u := fun ρ => h.meaning ρ

/-- A function is the abstraction of its application to a new variable. -/
theorem lambda {c t : Term} {y : String} (hc : c.Functional) (hy : y ∉ c.freeOccurrences)
    (h : SameMeaning (.app c (.var y)) t) : SameMeaning c (.lambda (.var y) t) := by
  intro ρ
  rw [meaning_lambda, hc ρ]
  refine congrArg lam (funext fun z => ?_)
  have hz := h (Function.update ρ y z)
  rwa [meaning_app, meaning_var, Function.update_self, meaning_update_of_not_mem hy] at hz

/-- Sharing an argument by a definition. -/
theorem letrec {c d t a ta : Term} {v : String} (ha : v ∉ a.freeOccurrences) (hta : SameMeaning a ta)
    (hd : SameMeaning d t) (hc : ∀ ρ, c.meaning delayedFixpointValue ρ =
      d.meaning delayedFixpointValue (Function.update ρ v (a.meaning delayedFixpointValue ρ))) :
    SameMeaning c (.letrec (.var v) ta t) := by
  intro ρ
  have hta' (z : Value) : ta.meaning delayedFixpointValue (Function.update ρ v z) =
      a.meaning delayedFixpointValue ρ := by
    rw [← hta, meaning_update_of_not_mem ha]
  simp only [meaning_letrec, hta']
  rw [← fix_eq (finitary_const _), hc, hd]

/-- The fixed point of what a term is decompiled to. -/
theorem fixpoint {x tx : Term} {y z : String} (hyz : y ≠ z) (hy : y ∉ x.freeOccurrences)
    (hz : z ∉ x.freeOccurrences) (h : SameMeaning x tx) :
    SameMeaning (.app (.const .y) x) (tx.fixpoint y z) := by
  intro ρ
  rw [Term.fixpoint, meaning_letrec, meaning_var, Function.update_self, meaning_app, meaning_const, Const.meaning,
    delayedFixpointValue, app_lam (by fun_prop)]
  refine congrArg fix (funext fun u => ?_)
  rw [meaning_lambda]
  refine congrArg lam (funext fun w => ?_)
  rw [meaning_app, meaning_app, meaning_var, meaning_var, Function.update_self, Function.update_of_ne hyz,
    Function.update_self, ← delayedFixpointValue, ← h, meaning_update_of_not_mem hz, meaning_update_of_not_mem hy]

end SameMeaning

theorem lam_eq_lam_app {F : Value → Value} (hF : Finitary F) : lam F = lam (Value.app (lam F)) :=
  congrArg lam (funext fun x => (app_lam hF x).symm)

/-- A combinator that lacks arguments is a function. -/
theorem functional_spine (o : Const) (as : List Term) (h : as.length < o.parameters) :
    Functional ((Term.const o).appAll as) := by
  intro ρ
  have hle : o.parameters ≤ 3 := by cases o <;> decide
  rcases as with _ | ⟨x, _ | ⟨y, _ | ⟨z, as⟩⟩⟩
  case cons.cons.cons =>
    simp only [List.length_cons] at h
    omega
  all_goals
    cases o <;> simp [Const.parameters] at h <;>
      simp (disch := fun_prop) only [appAll_cons, appAll_nil, meaning_app, meaning_const, Const.meaning,
        delayedFixpointValue, app_lam]
  all_goals
    apply lam_eq_lam_app
    fun_prop

/-! ### Meaning of the rules -/

theorem code_appAll {h : Term} {as : List Term} : (h.appAll as).Code ↔ h.Code ∧ ∀ a ∈ as, a.Code :=
  appAll_iff fun _ _ => Iff.rfl

theorem not_code_of_comparison? {o : Const} {b : Binary} (ho : o.comparison? = some b) : ¬(Term.const o).Code := by
  cases o <;> cases ho <;> exact Nat.lt_irrefl 0

section

variable {c d : Term}

/-- Code is contracted to code that means the same. -/
theorem Contracts.sameMeaning (h : Contracts c d) (hc : c.Code) : d.Code ∧ SameMeaning c d := by
  cases h with
  | i x => exact ⟨hc.2, .law (.i _)⟩
  | k x y => exact ⟨hc.1.2, .law (.k _ y)⟩
  | b x y z => exact ⟨⟨hc.1.1.2, hc.1.2, hc.2⟩, .law (.b x y z)⟩
  | c x y z => exact ⟨⟨⟨hc.1.1.2, hc.2⟩, hc.1.2⟩, .law (.c x y z)⟩
  | w x n => exact ⟨⟨⟨hc.1.2, trivial⟩, trivial⟩, .law (.w x _)⟩
  | s x y n => exact ⟨⟨⟨hc.1.1.2, trivial⟩, hc.1.2, trivial⟩, .law (.s x y _)⟩
  | comp x y =>
    refine ⟨⟨⟨Nat.succ_pos 2, hc.1⟩, hc.2⟩, fun ρ => ?_⟩
    simp (disch := fun_prop) only [appAll_cons, appAll_nil, meaning_app, meaning_comp, meaning_const, Const.meaning,
      app_lam]
  | @derived o _ ho =>
    cases o with
    | ci =>
      cases ho
      refine ⟨⟨Nat.succ_pos 2, Nat.succ_pos 0⟩, fun ρ => ?_⟩
      simp (disch := fun_prop) only [reversedApplication, meaning_app, meaning_const, Const.meaning, app_lam]
    | cb =>
      cases ho
      refine ⟨⟨Nat.succ_pos 2, Nat.succ_pos 2⟩, fun ρ => ?_⟩
      simp (disch := fun_prop) only [reversedComposition, meaning_app, meaning_const, Const.meaning, app_lam]
    | u | v | p => exact absurd hc (Nat.lt_irrefl 0)
    | _ => cases ho
  | @operator o _ x y ho => cases o <;> cases ho <;> exact absurd hc.1.1 (Nat.lt_irrefl 0)
  | comparison x y ho => exact absurd hc.1.1 (not_code_of_comparison? ho)

/-- Code that lacks an operand is a function. -/
theorem Awaits.functional {q : String → Term} (h : Awaits c q) (hc : c.Code) : q = .var ∧ c.Functional := by
  cases h with
  | combinator o as hlt =>
    have ho : 0 < o.parameters := (code_appAll.1 hc).1
    have hle : o.operands ≤ o.parameters := by
      revert ho
      cases o <;> decide
    exact ⟨rfl, functional_spine o as (by omega)⟩
  | comparison ho => exact absurd hc (not_code_of_comparison? ho)
  | comparisonWith x ho => exact absurd hc.1 (not_code_of_comparison? ho)

/-- The part that is shared has its value under the name that is left for it. -/
theorem Shares.meaning {a : Term} {q d : String → Term} {v : String} (h : Shares c a q d) (hc : c.Code)
    (hv : v ∉ c.freeOccurrences) : q = .var ∧ a.Code ∧ (d v).Code ∧ v ∉ a.freeOccurrences ∧
      ∀ ρ, c.meaning delayedFixpointValue ρ =
        (d v).meaning delayedFixpointValue (Function.update ρ v (a.meaning delayedFixpointValue ρ)) := by
  cases h with
  | w x a =>
    simp only [appAll_cons, appAll_nil, mem_freeOccurrences_binary, not_or] at hv
    refine ⟨rfl, hc.2, ⟨⟨hc.1.2, trivial⟩, trivial⟩, hv.2, fun ρ => ?_⟩
    refine ((CombinatorLaw.w x a).meaning ρ).trans ?_
    simp only [appAll_cons, appAll_nil, meaning_app, meaning_var, Function.update_self,
      meaning_update_of_not_mem hv.1.2]
  | s x y a =>
    simp only [appAll_cons, appAll_nil, mem_freeOccurrences_binary, not_or] at hv
    refine ⟨rfl, hc.2, ⟨⟨hc.1.1.2, trivial⟩, hc.1.2, trivial⟩, hv.2, fun ρ => ?_⟩
    refine ((CombinatorLaw.s x y a).meaning ρ).trans ?_
    simp only [appAll_cons, appAll_nil, meaning_app, meaning_var, Function.update_self,
      meaning_update_of_not_mem hv.1.1.2, meaning_update_of_not_mem hv.1.2]
  | operand a ho => exact absurd hc.1 (not_code_of_comparison? ho)
  | left a y ho => exact absurd hc.1.1 (not_code_of_comparison? ho)
  | right x a ho => exact absurd hc.1.1 (not_code_of_comparison? ho)

end

/-- What decompilation gives means what the code means: by induction on the rules. -/
theorem Decompiles.sameMeaning {c t : Term} {ns : List String} (h : Decompiles c ns t) (hc : c.Code) :
    t.LambdaTerm ∧ SameMeaning c t := by
  induction h with
  | var n => exact ⟨trivial, .refl _⟩
  | hole => exact absurd hc (Nat.lt_irrefl 0)
  | absorb as ho =>
    have hcode := (code_appAll.1 hc).1
    rcases ho with rfl | rfl <;> exact absurd hcode (Nat.lt_irrefl 0)
  | @binary b x y t u _ _ hb _ _ ihx ihy =>
    cases b with
    | app => exact ⟨⟨(ihx hc.1).1, (ihy hc.2).1⟩, (ihx hc.1).2.app (ihy hc.2).2⟩
    | comp => exact absurd rfl hb
    | join | rand | define | stack | less | nless | equal => exact hc.elim
  | unary | lambda | letrec => exact hc.elim
  | contract as hcd _ ih =>
    rw [code_appAll] at hc
    obtain ⟨hd, hsame⟩ := hcd.sameMeaning hc.1
    obtain ⟨ht, hdt⟩ := ih (code_appAll.2 ⟨hd, hc.2⟩)
    exact ⟨ht, (hsame.appAll as).trans hdt⟩
  | abstract hq hy _ ih =>
    obtain ⟨rfl, hfun⟩ := hq.functional hc
    obtain ⟨ht, happ⟩ := ih ⟨hc, trivial⟩
    exact ⟨ht, .lambda hfun (fun hm => hy (mem_payloads_of_mem_freeOccurrences hm)) happ⟩
  | share hsh hv _ _ iha ihd =>
    obtain ⟨rfl, ha, hd, hva, hmean⟩ := hsh.meaning hc fun hm => hv (mem_payloads_of_mem_freeOccurrences hm)
    exact ⟨⟨(iha ha).1, (ihd hd).1⟩, .letrec hva (iha ha).2 (ihd hd).2 hmean⟩
  | fixpoint hyz hy hz _ ih =>
    obtain ⟨ht, hsame⟩ := ih hc.2
    exact ⟨⟨⟨ht, trivial, trivial⟩, trivial⟩,
      .fixpoint hyz (fun hm => hy (mem_payloads_of_mem_freeOccurrences hm))
        (fun hm => hz (mem_payloads_of_mem_freeOccurrences hm)) hsame⟩

/-! ### Behaviour -/

/-- The laws of code, with a fixed point that is taken once it is applied. -/
def CodeLaw (t u : Term) : Prop := CombinatorLaw t u ∨ DelayedFixpointLaw t u

theorem sound_codeLaw : Sound delayedFixpointValue CodeLaw := .or .combinatorLaw .delayedFixpointLaw

theorem complete_codeLaw (f : String) : Complete CodeLaw f delayedFixpointValue where
  combinators _ _ := .inl
  fixpoint := realizes_delayed_y fun _ _ => .inr

theorem Code.wellFormed_and_binderFree {c : Term} (h : c.Code) : c.WellFormed ∧ c.BinderFree := by
  induction c with
  | var _ | const _ => exact ⟨trivial, trivial⟩
  | binary b x y ihx ihy =>
    cases b with
    | app | comp => exact ⟨⟨(ihx h.1).1, (ihy h.2).1⟩, (ihx h.1).2, (ihy h.2).2⟩
    | join | rand | define | stack | less | nless | equal => exact h.elim
  | name _ | unary _ _ | lambda _ _ | letrec _ _ _ => exact h.elim

theorem Code.tidy {c : Term} (h : c.Code) : c.Tidy :=
  ⟨h.wellFormed_and_binderFree.1, h.wellFormed_and_binderFree.2.simpleBinders⟩

/-- Code reduces to a variable if and only if its meaning tells so. -/
theorem Code.reduces_iff {c : Term} (hc : c.Code) {f : String} :
    Reduces CodeLaw c (.var f) ↔ .observed ∈ c.meaning delayedFixpointValue (observing f) :=
  ⟨sound_codeLaw.observed_mem_meaning hc.tidy,
    reduces_of_observed_mem_meaning (.inl hc.wellFormed_and_binderFree.2) (.inr (complete_codeLaw f)) hc.tidy⟩

/-- A λ-term reduces to a variable if and only if its meaning tells so, whatever `Y` means. -/
theorem LambdaTerm.reduces_iff {t : Term} (ht : t.LambdaTerm) {f : String} (yv : Value) :
    Reduces BinderLaw t (.var f) ↔ .observed ∈ t.meaning yv (observing f) :=
  ⟨Sound.binderLaw.observed_mem_meaning ht.tidy,
    reduces_of_observed_mem_meaning (.inr le_rfl) (.inl ht) ht.tidy⟩

theorem sameMeaning_decompileRaw {c t : Term} (hc : c.Code) (ht : c.decompileRaw = .ok t) :
    t.LambdaTerm ∧ SameMeaning c t := by
  obtain ⟨ns, h⟩ := decompiles_of_decompileRaw ht
  exact h.sameMeaning hc

theorem meaning_le_simplify {t u : Term} (ht : t.LambdaTerm) (hu : t.simplify = .ok u) :
    u.LambdaTerm ∧ ∀ yv ρ, t.meaning yv ρ ≤ u.meaning yv ρ := by
  have hs := simplifies_normalize t
  have hn := hs.lambdaTerm ht
  have hα : AlphaEq t.normalize u := (canonicalForm_canonical hn.tidy.1 hu).2.alphaEq.symm
  exact ⟨hα.lambdaTerm hn, fun yv ρ => (hs.meaning_le ht ρ).trans hα.meaning.le⟩

/-- **Decompilation preserves behaviour**: what code reduces to if `Y x z` is contracted to `x (Y x z)`, the
decompiled term reduces to. Before it is simplified it reduces to nothing else. -/
theorem reduces_decompile {c u : Term} {f : String} (hc : c.Code) (hu : c.decompile = .ok u) :
    (Reduces CodeLaw c (.var f) → Reduces BinderLaw u (.var f)) ∧
      ∃ t, c.decompileRaw = .ok t ∧ t.simplify = .ok u ∧
        (Reduces BinderLaw t (.var f) ↔ Reduces CodeLaw c (.var f)) := by
  obtain ⟨t, ht, htu⟩ := bind_eq_ok.1 hu
  obtain ⟨hlambda, hsame⟩ := sameMeaning_decompileRaw hc ht
  obtain ⟨hulambda, hle⟩ := meaning_le_simplify hlambda htu
  refine ⟨fun h => ?_, t, ht, htu, ?_⟩
  · rw [hulambda.reduces_iff delayedFixpointValue]
    rw [hc.reduces_iff, hsame] at h
    exact hle _ _ h
  · rw [hlambda.reduces_iff delayedFixpointValue, hc.reduces_iff, hsame]

/-- In `W (B K (Y (K f))) (I g)` the argument `I g` is shared, and the fixed point of `K f` is applied to it. -/
theorem reduces_decompile_sharing :
    Reduces CodeLaw
        (appAll (.const .w) [appAll (.const .b) [.const .k, app (.const .y) (app (.const .k) (.var "f"))],
          app (.const .i) (.var "g")])
        (.var "f") ∧
      Reduces BinderLaw
        (.letrec (.var "a") (.var "g") (app (fixpoint (.lambda (.var "d") (.var "f")) "b" "c") (.var "a")))
        (.var "f") := by
  have h : Reduces CodeLaw
      (appAll (.const .w) [appAll (.const .b) [.const .k, app (.const .y) (app (.const .k) (.var "f"))],
        app (.const .i) (.var "g")])
      (.var "f") := by
    refine .head (.contract (.inl (.w _ _))) ?_
    refine .head (.app _ (.contract (.inl (.b _ _ _)))) ?_
    refine .head (.contract (.inl (.k _ _))) ?_
    refine .head (.contract (.inr (.y _ _))) ?_
    exact .head (.contract (.inl (.k _ _))) .refl
  exact ⟨h, (reduces_decompile (by simp [Code, Const.parameters]) (by decide +kernel)).1 h⟩

/-- `Y (K f)` reduces to `f` if `Y x` is contracted to `x (Y x)`. What it is decompiled to is a function, which
reduces to no variable. -/
theorem not_reduces_decompile_fixpoint :
    ∃ c u : Term, c.Code ∧ c.decompile = .ok u ∧
      Reduces (fun t t' => CombinatorLaw t t' ∨ FixpointLaw t t') c (.var "f") ∧
      ¬Reduces BinderLaw u (.var "f") := by
  refine ⟨app (.const .y) (app (.const .k) (.var "f")), fixpoint (.lambda (.var "c") (.var "f")) "a" "b",
    by simp [Code, Const.parameters], by decide +kernel, ?_, fun h => ?_⟩
  · refine .head (.contract (.inr (.y _))) ?_
    exact .head (.contract (.inl (.k _ _))) .refl
  · have hlambda : (fixpoint (.lambda (.var "c") (.var "f")) "a" "b").LambdaTerm :=
      ⟨⟨trivial, trivial, trivial⟩, trivial⟩
    rw [hlambda.reduces_iff ⊥, fixpoint, meaning_letrec, meaning_var, Function.update_self,
      ← fix_eq (finitary_meaning _ _), meaning_lambda] at h
    obtain ⟨_, _, _, hmaps, -⟩ := mem_lam.1 h
    cases hmaps

end Term

end Combinatory
