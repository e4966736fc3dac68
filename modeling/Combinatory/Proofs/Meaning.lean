import Combinatory.Proofs.GraphModel
import Combinatory.Proofs.Substitution
import Mathlib.Data.List.GetD

/-!
# Meanings of terms

The value of a term in the graph model, given the values of its free variables.

## The model

The combinators are functions, `LAMBDA` with a variable for its pattern is `Value.lam`, and `LETREC` is
`Value.fix`. What `Y` means is left open: it is the parameter `yv`, since compilation and decompilation read `Y`
in two ways. Heads that head reduction does nothing with have no value, `⊥`.

The meaning is defined on nameless forms, so it does not depend on the choice of bound names. `Term.meaning` is
the meaning of a term, with the laws by which it goes through each head, and `Term.meaning_substitute` says that
substitution is the same as giving the variable another value.
-/

namespace Combinatory

open Value

/-- The meaning of a constant, when `yv` is the meaning of `Y`. -/
def Const.meaning (yv : Value) : Const → Value
  | .i => lam fun x => x
  | .k => lam fun x => lam fun _ => x
  | .b => lam fun x => lam fun y => lam fun z => app x (app y z)
  | .c => lam fun x => lam fun y => lam fun z => app (app x z) y
  | .ci => lam fun x => lam fun y => app y x
  | .cb => lam fun x => lam fun y => lam fun z => app y (app x z)
  | .w => lam fun x => lam fun y => app (app x y) y
  | .s => lam fun x => lam fun y => lam fun z => app (app x z) (app y z)
  | .y => yv
  | _ => ⊥

namespace Nameless

/-- The meaning of a form, given values of its free variables and of the scope. -/
@[simp] def meaning (yv : Value) (ρ : String → Value) : Nameless → List Value → Value
  | .const o, _ => o.meaning yv
  | .free n, _ => ρ n
  | .bound i, η => η.getD i ⊥
  | .binary .app x y, η => app (x.meaning yv ρ η) (y.meaning yv ρ η)
  | .binary .comp x y, η => lam fun z => app (x.meaning yv ρ η) (app (y.meaning yv ρ η) z)
  | .lambda k p e, η => if k = 1 ∧ p = .bound 0 then lam fun x => e.meaning yv ρ (x :: η) else ⊥
  | .letrec k p d e, η =>
    if k = 1 ∧ p = .bound 0 then e.meaning yv ρ (fix (fun x => d.meaning yv ρ (x :: η)) :: η) else ⊥
  | _, _ => ⊥

variable {yv : Value}

theorem meaning_congr {ρ ρ' : String → Value} {s : Nameless} (h : ∀ n ∈ s.frees, ρ n = ρ' n)
    (η : List Value) : s.meaning yv ρ η = s.meaning yv ρ' η := by
  induction s generalizing η with
  | name _ | const _ | bound _ | unary _ _ => rfl
  | free n => exact h n (by simp [frees])
  | binary b x y ihx ihy =>
    simp only [frees, List.mem_append] at h
    have hx := ihx (fun n hn => h n (.inl hn)) η
    have hy := ihy (fun n hn => h n (.inr hn)) η
    cases b <;> simp only [meaning, hx, hy]
  | lambda k p e _ ihe => simp only [meaning, ihe h]
  | letrec k p d e _ ihd ihe =>
    simp only [frees, List.mem_append] at h
    simp only [meaning, ihd fun n hn => h n (.inl hn), ihe fun n hn => h n (.inr hn)]

/-- Replacing free variables is giving them other values. -/
theorem meaning_substAll {ρ : String → Value} {σ : String → Nameless}
    (hσ : ∀ n η, (σ n).meaning yv ρ η = (σ n).meaning yv ρ []) (s : Nameless) (η : List Value) :
    (s.substAll σ).meaning yv ρ η = s.meaning yv (fun n => (σ n).meaning yv ρ []) η := by
  induction s generalizing η with
  | name _ | const _ | bound _ | unary _ _ => rfl
  | free n => exact hσ n η
  | binary b x y ihx ihy => cases b <;> simp only [substAll, meaning, ihx, ihy]
  | lambda k p e _ ihe => simp only [substAll, meaning, ihe]
  | letrec k p d e _ ihd ihe => simp only [substAll, meaning, ihd, ihe]

/-- Meanings are finitary in whatever their variables depend on. -/
theorem finitary_meaning {ρ : Value → String → Value} {η : Value → List Value} (s : Nameless)
    (hρ : ∀ n, Finitary fun x => ρ x n) (hη : ∀ i, Finitary fun x => (η x).getD i ⊥) :
    Finitary fun x => s.meaning yv (ρ x) (η x) := by
  induction s generalizing η with
  | name _ | const _ | unary _ _ => exact finitary_const _
  | free n => exact hρ n
  | bound i => exact hη i
  | binary b x y ihx ihy =>
    cases b with
    | app => exact (ihx hη).app (ihy hη)
    | comp => exact Finitary.lam fun z => (ihx hη).app ((ihy hη).app (finitary_const z))
    | join | rand | define | stack | less | nless | equal => exact finitary_const _
  | lambda k p e _ ihe =>
    simp only [meaning]
    split
    · refine Finitary.lam fun z => ihe fun i => ?_
      cases i with
      | zero => exact finitary_const z
      | succ i => exact hη i
    · exact finitary_const _
  | letrec k p d e _ ihd ihe =>
    simp only [meaning]
    split
    · refine ihe fun i => ?_
      cases i with
      | zero =>
        refine Finitary.fix fun z => ihd fun i => ?_
        cases i with
        | zero => exact finitary_const z
        | succ i => exact hη i
      | succ i => exact hη i
    · exact finitary_const _

end Nameless

namespace Term

open Nameless

variable {yv : Value}

/-- The scope of a binder that has a meaning is one longer. -/
theorem length_cons_binders {p : Term} {Γ : List String} {η : List Value} (h : η.length = Γ.length)
    (hp : p.payloads.length = 1) (x : Value) : (x :: η).length = (p.binders ++ Γ).length := by
  rw [List.length_cons, List.length_append, length_binders, hp, h, Nat.add_comm]

/-- Values behind the scope do not matter. -/
theorem meaning_nameless_append (t : Term) {ρ : String → Value} {Γ : List String} {η : List Value}
    (h : η.length = Γ.length) (ζ : List Value) :
    (t.nameless Γ).meaning yv ρ (η ++ ζ) = (t.nameless Γ).meaning yv ρ η := by
  induction t generalizing Γ η with
  | name _ | const _ | unary _ _ => rfl
  | var n =>
    by_cases hn : n ∈ Γ
    · have hlt := List.idxOf_lt_length_of_mem hn
      simp only [nameless, resolve, hn, if_true, Nameless.meaning]
      exact List.getD_append _ _ _ _ (h ▸ hlt)
    · simp only [nameless, resolve_of_not_mem hn, Nameless.meaning]
  | binary b x y ihx ihy => cases b <;> simp only [nameless, Nameless.meaning, ihx h, ihy h]
  | lambda p e _ ihe =>
    simp only [nameless, Nameless.meaning]
    split
    · next hp => simp only [← List.cons_append, ihe (length_cons_binders h hp.1 _)]
    · rfl
  | letrec p d e _ ihd ihe =>
    simp only [nameless, Nameless.meaning]
    split
    · next hp => simp only [← List.cons_append, ihd (length_cons_binders h hp.1 _), ihe (length_cons_binders h hp.1 _)]
    · rfl

/-- A value for the outermost name of the scope is a value for the free variable of that name. -/
theorem meaning_nameless_concat (t : Term) {ρ : String → Value} {Γ : List String} {η : List Value}
    (h : η.length = Γ.length) (n : String) (x : Value) :
    (t.nameless (Γ ++ [n])).meaning yv ρ (η ++ [x]) =
      (t.nameless Γ).meaning yv (Function.update ρ n x) η := by
  induction t generalizing Γ η with
  | name _ | const _ | unary _ _ => rfl
  | var m =>
    by_cases hm : m ∈ Γ
    · have hlt := List.idxOf_lt_length_of_mem hm
      simp only [nameless, resolve, List.mem_append, hm, true_or, if_true, List.idxOf_append_of_mem hm,
        Nameless.meaning]
      exact List.getD_append _ _ _ _ (h ▸ hlt)
    · by_cases hmn : m = n
      · subst hmn
        simp [nameless, resolve, hm, List.idxOf_append_of_notMem hm, Nameless.meaning, ← h]
      · have hm' : m ∉ Γ ++ [n] := by simp [hm, hmn]
        simp only [nameless, resolve_of_not_mem hm, resolve_of_not_mem hm', Nameless.meaning,
          Function.update_of_ne hmn]
  | binary b x y ihx ihy => cases b <;> simp only [nameless, Nameless.meaning, ihx h, ihy h]
  | lambda p e _ ihe =>
    simp only [nameless, Nameless.meaning]
    split
    · next hp => simp only [← List.append_assoc, ← List.cons_append, ihe (length_cons_binders h hp.1 _)]
    · rfl
  | letrec p d e _ ihd ihe =>
    simp only [nameless, Nameless.meaning]
    split
    · next hp =>
      simp only [← List.append_assoc, ← List.cons_append, ihd (length_cons_binders h hp.1 _),
        ihe (length_cons_binders h hp.1 _)]
    · rfl

/-- The meaning of a term, given values of its free variables. -/
def meaning (yv : Value) (ρ : String → Value) (t : Term) : Value := (t.nameless []).meaning yv ρ []

variable {ρ : String → Value}

theorem meaning_nameless (t : Term) (η : List Value) : (t.nameless []).meaning yv ρ η = t.meaning yv ρ :=
  t.meaning_nameless_append (η := []) rfl η

theorem meaning_nameless_singleton (t : Term) (n : String) (x : Value) :
    (t.nameless [n]).meaning yv ρ [x] = t.meaning yv (Function.update ρ n x) :=
  t.meaning_nameless_concat (Γ := []) (η := []) rfl n x

@[simp] theorem meaning_const (o : Const) : (Term.const o).meaning yv ρ = o.meaning yv := rfl

@[simp] theorem meaning_var (n : String) : (Term.var n).meaning yv ρ = ρ n := by
  simp [meaning, nameless, Nameless.meaning]

@[simp] theorem meaning_app (x y : Term) :
    (app x y).meaning yv ρ = Value.app (x.meaning yv ρ) (y.meaning yv ρ) := rfl

@[simp] theorem meaning_comp (x y : Term) :
    (comp x y).meaning yv ρ = lam fun z => Value.app (x.meaning yv ρ) (Value.app (y.meaning yv ρ) z) := rfl

@[simp] theorem meaning_lambda (n : String) (e : Term) :
    (lambda (.var n) e).meaning yv ρ = lam fun x => e.meaning yv (Function.update ρ n x) := by
  simp [meaning, nameless, Nameless.meaning, binders, payloads, meaning_nameless_singleton]

@[simp] theorem meaning_letrec (n : String) (d e : Term) :
    (letrec (.var n) d e).meaning yv ρ =
      e.meaning yv (Function.update ρ n (fix fun x => d.meaning yv (Function.update ρ n x))) := by
  simp [meaning, nameless, Nameless.meaning, binders, payloads, meaning_nameless_singleton]

theorem meaning_congr {ρ' : String → Value} {t : Term} (h : ∀ n ∈ t.freeOccurrences, ρ n = ρ' n) :
    t.meaning yv ρ = t.meaning yv ρ' :=
  Nameless.meaning_congr (fun n hn => h n (mem_frees_nameless_nil.1 hn)) []

/-- A variable that does not occur free does not matter. -/
theorem meaning_update_of_not_mem {t : Term} {n : String} (h : n ∉ t.freeOccurrences) (x : Value) :
    t.meaning yv (Function.update ρ n x) = t.meaning yv ρ :=
  meaning_congr fun m hm => Function.update_of_ne (fun e : m = n => h (e ▸ hm)) _ _

theorem AlphaEq.meaning {t u : Term} (h : AlphaEq t u) : t.meaning yv ρ = u.meaning yv ρ := by
  rw [Term.meaning, Term.meaning, h]

theorem finitary_meaning (t : Term) (n : String) :
    Finitary fun x => t.meaning yv (Function.update ρ n x) := by
  refine Nameless.finitary_meaning _ (fun m => ?_) fun i => finitary_const _
  by_cases hm : m = n
  · subst hm
    simpa using finitary_id
  · simpa [Function.update_of_ne hm] using finitary_const (ρ m)

/-- **Substitution** gives a variable another value. -/
theorem meaning_substitute {n : String} {d t : Term} (ht : t.Tidy) :
    (substitute n d t).meaning yv ρ = t.meaning yv (Function.update ρ n (d.meaning yv ρ)) := by
  have hσ (m : String) (η : List Value) :
      (Function.update free n (d.nameless []) m).meaning yv ρ η =
        (Function.update free n (d.nameless []) m).meaning yv ρ [] := by
    by_cases hm : m = n
    · subst hm
      simp only [Function.update_self]
      exact d.meaning_nameless η
    · simp only [Function.update_of_ne hm, Nameless.meaning]
  rw [meaning, nameless_substitute_nil ht, subst, meaning_substAll hσ]
  congr 1
  funext m
  by_cases hm : m = n
  · subst hm
    simp [meaning]
  · simp [Function.update_of_ne hm, Nameless.meaning]

end Term

end Combinatory
