import Mathlib.Data.Set.Finite.Lattice
import Mathlib.Data.Set.Finite.Lemmas
import Mathlib.Order.UpperLower.Closure
import Mathlib.Tactic.FunProp

/-!
# A graph model

A domain in which application, abstraction and fixed points have meanings. It serves to compare a term with what
is made of it: the meaning of a term tells whether its head reduction ends with the variable that is observed.

## The model

An `Info` is a finite piece of information about a value: that it is the observed variable, or that it maps any
argument about which all of `M` is known to a result about which `τ` is known. To know more about the result, or
to ask less of the argument, is more information; this is the order on `Info`. A `Value` is everything that is
known about something: a set of pieces of information with each of which it has all lesser ones.

`Value.app` applies one value to another, and `Value.lam` is the value of a function on values. A function is
`Finitary` if each piece of information about a result needs finitely many about the argument. On such functions
`Value.app` inverts `Value.lam` (`app_lam`); the other way round only `lam_app_le` holds, since the observed
variable is no function. The join of two values is what is known about one of them, and is applied side by side
(`sup_app`). `Value.fix` is what can be derived by going through a function finitely often, and is the least fixed
point of a finitary one.
-/

namespace Combinatory

/-- A finite piece of information about a value. -/
inductive Info where
  /-- It is the observed variable. -/
  | observed
  /-- It maps an argument about which all of `M` is known to a result about which `τ` is. -/
  | maps {k : Nat} (M : Fin k → Info) (τ : Info)

namespace Info

/-- The order of information. -/
inductive Le : Info → Info → Prop where
  /-- The observed variable is like itself only. -/
  | observed : Le .observed .observed
  /-- A function is known better if it asks less and gives more. -/
  | maps {j k : Nat} {M : Fin j → Info} {N : Fin k → Info} {τ υ : Info} (f : Fin k → Fin j) :
    (∀ i, Le (N i) (M (f i))) → Le τ υ → Le (.maps M τ) (.maps N υ)

theorem Le.refl (τ : Info) : Le τ τ := by
  induction τ with
  | observed => exact .observed
  | maps M τ ihM ihτ => exact .maps id ihM ihτ

theorem Le.trans {τ υ φ : Info} (h₁ : Le τ υ) (h₂ : Le υ φ) : Le τ φ := by
  -- arguments go the other way, so the induction is on the information in the middle
  induction υ generalizing τ φ with
  | observed => cases h₁; exact h₂
  | maps M υ ihM ihυ =>
    cases h₁ with
    | maps f hf hτ =>
      cases h₂ with
      | maps g hg hφ => exact .maps (f ∘ g) (fun i => ihM (g i) (hg i) (hf (g i))) (ihυ hτ hφ)

instance : Preorder Info where
  le := Le
  le_refl := Le.refl
  le_trans _ _ _ := Le.trans

theorem maps_le_maps {j k : Nat} {M : Fin j → Info} {N : Fin k → Info} {τ υ : Info}
    (h : ∀ i, ∃ i', N i ≤ M i') (hτ : τ ≤ υ) : maps M τ ≤ maps N υ := by
  choose f hf using h
  exact .maps f hf hτ

theorem maps_le_iff {k : Nat} {N : Fin k → Info} {υ φ : Info} :
    φ ≤ maps N υ ↔ ∃ (j : Nat) (M : Fin j → Info) (τ : Info),
      φ = maps M τ ∧ (∀ i, ∃ i', N i ≤ M i') ∧ τ ≤ υ := by
  constructor
  · intro h
    cases h with
    | maps f hf hτ => exact ⟨_, _, _, rfl, fun i => ⟨f i, hf i⟩, hτ⟩
  · rintro ⟨j, M, τ, rfl, h, hτ⟩
    exact maps_le_maps h hτ

end Info

open Info

/-- Everything that is known about something. -/
abbrev Value : Type := LowerSet Info

namespace Value

/-- The least value about which the given information is known. -/
abbrev known (S : Set Info) : Value := lowerClosure S

theorem known_le_iff {S : Set Info} {x : Value} : known S ≤ x ↔ S ⊆ x := lowerClosure_le

theorem mem_known_of_mem {S : Set Info} {τ : Info} (h : τ ∈ S) : τ ∈ known S := subset_lowerClosure h

/-- Application. -/
def app (x y : Value) : Value where
  carrier := {τ | ∃ (k : Nat) (M : Fin k → Info), maps M τ ∈ x ∧ ∀ i, M i ∈ y}
  lower' := by
    rintro τ υ hle ⟨k, M, hx, hy⟩
    exact ⟨k, M, x.lower (maps_le_maps (fun i => ⟨i, le_rfl⟩) hle) hx, hy⟩

/-- The value of a function. -/
def lam (f : Value → Value) : Value where
  carrier := {φ | ∃ (k : Nat) (M : Fin k → Info) (τ : Info), φ = maps M τ ∧ ∃ x ≤ known (Set.range M), τ ∈ f x}
  lower' := by
    rintro φ ψ hle ⟨k, N, υ, rfl, x, hx, hυ⟩
    obtain ⟨j, M, τ, rfl, hM, hτ⟩ := maps_le_iff.1 hle
    refine ⟨j, M, τ, rfl, x, hx.trans ?_, (f x).lower hτ hυ⟩
    rw [known_le_iff]
    rintro _ ⟨i, rfl⟩
    obtain ⟨i', hi'⟩ := hM i
    exact mem_lowerClosure.2 ⟨M i', ⟨i', rfl⟩, hi'⟩

/-- Information that is reached by going through `f` finitely often. -/
inductive Derived (f : Value → Value) : Info → Prop where
  /-- What `f` gives on information that is reached. -/
  | intro {k : Nat} (M : Fin k → Info) {τ : Info} :
    (∀ i, Derived f (M i)) → τ ∈ f (known (Set.range M)) → Derived f τ

/-- The least fixed point of a function. -/
def fix (f : Value → Value) : Value where
  carrier := {τ | Derived f τ}
  lower' := by
    rintro τ υ hle ⟨M, hM, hτ⟩
    exact .intro M hM ((f _).lower hle hτ)

theorem mem_app {x y : Value} {τ : Info} :
    τ ∈ app x y ↔ ∃ (k : Nat) (M : Fin k → Info), maps M τ ∈ x ∧ ∀ i, M i ∈ y := Iff.rfl

theorem mem_lam {f : Value → Value} {φ : Info} :
    φ ∈ lam f ↔ ∃ (k : Nat) (M : Fin k → Info) (τ : Info),
      φ = maps M τ ∧ ∃ x ≤ known (Set.range M), τ ∈ f x := Iff.rfl

/-! ### Order -/

theorem app_mono {x x' y y' : Value} (hx : x ≤ x') (hy : y ≤ y') : app x y ≤ app x' y' := by
  rintro τ ⟨k, M, hM, h⟩
  exact ⟨k, M, hx hM, fun i => hy (h i)⟩

theorem lam_mono {f g : Value → Value} (h : ∀ x, f x ≤ g x) : lam f ≤ lam g := by
  rintro φ ⟨k, M, τ, rfl, x, hx, hτ⟩
  exact ⟨k, M, τ, rfl, x, hx, h x hτ⟩

theorem fix_mono {f g : Value → Value} (h : ∀ x, f x ≤ g x) : fix f ≤ fix g := by
  intro τ hτ
  induction hτ with
  | intro M _ hτ ih => exact .intro M ih (h _ hτ)

/-- The fixed point is the least value that the function does not increase. -/
theorem fix_le {f : Value → Value} (hf : Monotone f) {x : Value} (h : f x ≤ x) : fix f ≤ x := by
  intro τ hτ
  induction hτ with
  | intro M _ hτ ih =>
    apply h
    refine hf (known_le_iff.2 ?_) hτ
    rintro _ ⟨i, rfl⟩
    exact ih i

/-! ### Finitary functions -/

/-- Each piece of information about a result needs finitely many about the argument. -/
@[fun_prop] structure Finitary (f : Value → Value) : Prop where
  /-- More about the argument gives more about the result. -/
  mono : Monotone f
  /-- Finitely much about the argument is enough. -/
  finite : ∀ {x : Value} {τ : Info}, τ ∈ f x → ∃ S : Set Info, S.Finite ∧ S ⊆ x ∧ τ ∈ f (known S)

@[fun_prop] theorem finitary_id : Finitary fun x => x where
  mono := monotone_id
  finite {_ τ} h :=
    ⟨{τ}, Set.finite_singleton τ, Set.singleton_subset_iff.2 h, mem_known_of_mem (Set.mem_singleton τ)⟩

@[fun_prop] theorem finitary_const (y : Value) : Finitary fun _ => y where
  mono := monotone_const
  finite h := ⟨∅, Set.finite_empty, Set.empty_subset _, h⟩

/-- Finitely many pieces of information about results need finitely many about the argument. -/
theorem Finitary.finite_forall {f : Value → Value} (hf : Finitary f) {x : Value} {k : Nat} {M : Fin k → Info}
    (h : ∀ i, M i ∈ f x) : ∃ S : Set Info, S.Finite ∧ S ⊆ x ∧ ∀ i, M i ∈ f (known S) := by
  choose S hfin hsub hmem using fun i => hf.finite (h i)
  refine ⟨⋃ i, S i, Set.finite_iUnion hfin, Set.iUnion_subset hsub, fun i => ?_⟩
  exact hf.mono (lowerClosure_mono (Set.subset_iUnion S i)) (hmem i)

@[fun_prop] theorem Finitary.app {f g : Value → Value} (hf : Finitary f) (hg : Finitary g) :
    Finitary fun x => app (f x) (g x) where
  mono _ _ h := app_mono (hf.mono h) (hg.mono h)
  finite := by
    rintro x τ ⟨k, M, hM, h⟩
    obtain ⟨S, hS, hSx, hMS⟩ := hf.finite hM
    obtain ⟨T, hT, hTx, hMT⟩ := hg.finite_forall h
    refine ⟨S ∪ T, hS.union hT, Set.union_subset hSx hTx, k, M, ?_, fun i => ?_⟩
    · exact hf.mono (lowerClosure_mono Set.subset_union_left) hMS
    · exact hg.mono (lowerClosure_mono Set.subset_union_right) (hMT i)

@[fun_prop] theorem Finitary.lam {f : Value → Value → Value} (hf : ∀ y, Finitary fun x => f x y) :
    Finitary fun x => lam (f x) where
  mono _ _ h := lam_mono fun y => (hf y).mono h
  finite := by
    rintro x φ ⟨k, M, τ, rfl, y, hy, hτ⟩
    obtain ⟨S, hS, hSx, hτS⟩ := (hf y).finite hτ
    exact ⟨S, hS, hSx, k, M, τ, rfl, y, hy, hτS⟩

@[fun_prop] theorem Finitary.fix {f : Value → Value → Value} (hf : ∀ y, Finitary fun x => f x y) :
    Finitary fun x => fix (f x) where
  mono _ _ h := fix_mono fun y => (hf y).mono h
  finite := by
    intro x τ hτ
    induction hτ with
    | intro M _ hτ ih =>
      choose S hfin hsub hmem using ih
      obtain ⟨T, hT, hTx, hτT⟩ := (hf _).finite hτ
      have hle {U : Set Info} (hU : U ⊆ (⋃ i, S i) ∪ T) (y : Value) :
          f (known U) y ≤ f (known ((⋃ i, S i) ∪ T)) y := (hf y).mono (lowerClosure_mono hU)
      refine ⟨(⋃ i, S i) ∪ T, (Set.finite_iUnion hfin).union hT,
        Set.union_subset (Set.iUnion_subset hsub) hTx, .intro M (fun i => ?_) ?_⟩
      · exact fix_mono (hle ((Set.subset_iUnion S i).trans Set.subset_union_left)) (hmem i)
      · exact hle Set.subset_union_right _ hτT

@[fun_prop] theorem Finitary.sup {f g : Value → Value} (hf : Finitary f) (hg : Finitary g) :
    Finitary fun x => f x ⊔ g x where
  mono _ _ h := sup_le_sup (hf.mono h) (hg.mono h)
  finite := by
    rintro x τ (hτ | hτ)
    · obtain ⟨S, hS, hSx, hτS⟩ := hf.finite hτ
      exact ⟨S, hS, hSx, .inl hτS⟩
    · obtain ⟨S, hS, hSx, hτS⟩ := hg.finite hτ
      exact ⟨S, hS, hSx, .inr hτS⟩

/-! ### Laws -/

/-- Joins are applied side by side. -/
theorem sup_app (x y z : Value) : app (x ⊔ y) z = app x z ⊔ app y z := by
  ext τ
  constructor
  · rintro ⟨k, M, hM | hM, hz⟩
    · exact .inl ⟨k, M, hM, hz⟩
    · exact .inr ⟨k, M, hM, hz⟩
  · rintro (⟨k, M, hM, hz⟩ | ⟨k, M, hM, hz⟩)
    · exact ⟨k, M, .inl hM, hz⟩
    · exact ⟨k, M, .inr hM, hz⟩

/-- Applying the value of a function is applying the function. -/
theorem app_lam {f : Value → Value} (hf : Finitary f) (x : Value) : app (lam f) x = f x := by
  apply le_antisymm
  · rintro τ ⟨k, M, ⟨_, _, _, he, y, hy, hτ⟩, hx⟩
    cases he
    refine hf.mono (hy.trans (known_le_iff.2 ?_)) hτ
    rintro _ ⟨i, rfl⟩
    exact hx i
  · intro τ hτ
    obtain ⟨S, hS, hSx, hτS⟩ := hf.finite hτ
    obtain ⟨k, M, -, rfl⟩ := hS.fin_param
    exact ⟨k, M, ⟨k, M, τ, rfl, _, le_rfl, hτS⟩, fun i => hSx ⟨i, rfl⟩⟩

/-- What can be told about a value by applying it was known about the value. -/
theorem lam_app_le (x : Value) : lam (app x) ≤ x := by
  rintro φ ⟨k, M, τ, rfl, y, hy, j, N, hN, hNy⟩
  refine x.lower (maps_le_maps (fun i => ?_) le_rfl) hN
  obtain ⟨_, ⟨i', rfl⟩, hi'⟩ := mem_lowerClosure.1 (hy (hNy i))
  exact ⟨i', hi'⟩

theorem fix_eq {f : Value → Value} (hf : Finitary f) : f (fix f) = fix f := by
  apply le_antisymm
  · intro τ hτ
    obtain ⟨S, hS, hSx, hτS⟩ := hf.finite hτ
    obtain ⟨k, M, -, rfl⟩ := hS.fin_param
    exact .intro M (fun i => hSx ⟨i, rfl⟩) hτS
  · rintro τ ⟨M, hM, hτ⟩
    refine hf.mono (known_le_iff.2 ?_) hτ
    rintro _ ⟨i, rfl⟩
    exact hM i

end Value

end Combinatory
