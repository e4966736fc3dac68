import Combinatory.Proofs.NameSupply
import Mathlib.Logic.Function.Iterate

/-!
# A machine for rewriting rules

A rewriting that is given by rules, each of which may call for the results of other inputs, is run by a machine
that applies one rule after the other. The machine halts if what a rule calls for weighs less than its input.

## The model

A `Plan` is what one rule does: it draws names, calls for the results of other inputs, and ends with a result or an
error. Plans are written in `do` notation. `Plan.eval` is the computation that a plan stands for if the calls are
answered by a given function.

`Outcome` says what holds of the value or of the error that a computation ends with.

A `Machine` has the plan that it follows, the plans that wait for its result, the supply of names, and the number of
rules that it has applied. `Machine.step` is one step of it. It applies a rule where the plan calls for a result, and
only there. A function `Obeys` rules if each of its values is what the plan for the input evaluates to. The input of a
call may be made of the results of earlier calls; what it weighs then depends on them, and `ObeysIf` takes into account
only the results that the function can give.

## What is proved

* `ObeysIf.halts`, `Obeys.halts` — if the calls of every rule weigh together less than its input, the machine comes to
  a halt from every input and every supply, with what the function gives, and it has not applied more rules than the
  input weighs.
* `Obeys.meets` — what every rule requires of its calls, and ensures of its result if the calls do, holds of the
  outcome of the function.
* `Obeys.yields` — if the result of every rule is related to its input as long as those of its calls are related to
  theirs, all results of the function are related to their inputs.
* `Obeys.agrees` — if the rules for related inputs do the same with calls for related inputs, the function gives the
  same results for related inputs, with the same supplies. The rule for one of the two may call for yet another input
  first.
-/

namespace Combinatory

/-! ### Plans -/

/-- What a rule does to reach its result. -/
inductive Plan (ι β : Type) (α : Type) where
  /-- It ends with a result. -/
  | done (a : α)
  /-- It ends with an error. -/
  | fail (e : Error)
  /-- It draws a name. -/
  | draw (k : String → Plan ι β α)
  /-- It calls for the result of another input. -/
  | call (i : ι) (k : β → Plan ι β α)

variable {ι β α γ : Type}

namespace Plan

/-- One plan after another. -/
def bind : Plan ι β α → (α → Plan ι β γ) → Plan ι β γ
  | done a, k => k a
  | fail e, _ => fail e
  | draw j, k => draw fun n => (j n).bind k
  | call i j, k => call i fun b => (j b).bind k

instance : Monad (Plan ι β) where
  pure := done
  bind := bind

/-- Draws one name. -/
def fresh : Plan ι β String := draw done

/-- Asks for the result of another input. -/
def ask (i : ι) : Plan ι β β := call i done

/-- The computation that a plan stands for, if `f` answers the calls. -/
def eval (f : ι → Fresh β) : Plan ι β α → Fresh α
  | done a => pure a
  | fail e => throw e
  | draw k => do (k (← Fresh.name)).eval f
  | call i k => do (k (← f i)).eval f

section Eval

variable (f : ι → Fresh β)

@[simp] theorem eval_pure (a : α) : (pure a : Plan ι β α).eval f = pure a := rfl

@[simp] theorem eval_fail (e : Error) : (fail e : Plan ι β α).eval f = throw e := rfl

@[simp] theorem eval_fresh : (fresh : Plan ι β String).eval f = Fresh.name := bind_pure Fresh.name

@[simp] theorem eval_ask (i : ι) : (ask i : Plan ι β β).eval f = f i := bind_pure (f i)

@[simp] theorem eval_bind (p : Plan ι β α) (k : α → Plan ι β γ) :
    (p >>= k).eval f = p.eval f >>= fun a => (k a).eval f := by
  induction p with
  | done a => exact (pure_bind a fun a => (k a).eval f).symm
  | fail e => rfl
  | draw j ih => exact (bind_congr ih).trans (bind_assoc Fresh.name _ _).symm
  | call i j ih => exact (bind_congr ih).trans (bind_assoc (f i) _ _).symm

end Eval

/-- The inputs that a plan calls for weigh together no more than the bound. -/
def Within (w : ι → Nat) : Plan ι β α → Nat → Prop
  | done _, _ => True
  | fail _, _ => True
  | draw k, bound => ∀ n, (k n).Within w bound
  | call i k, bound => w i ≤ bound ∧ ∀ b, (k b).Within w (bound - w i)

/-- The same of a plan that may call for inputs made of the results of earlier calls, as long as these are related to
their inputs. -/
def WithinIf (R : ι → β → Prop) (w : ι → Nat) : Plan ι β α → Nat → Prop
  | done _, _ => True
  | fail _, _ => True
  | draw k, bound => ∀ n, (k n).WithinIf R w bound
  | call i k, bound => w i ≤ bound ∧ ∀ b, R i b → (k b).WithinIf R w (bound - w i)

/-- What is required of the plans of a table. -/
structure Spec (ι β : Type) where
  /-- What holds of the inputs. -/
  input : ι → Prop
  /-- What holds of the names that are drawn. -/
  name : String → Prop
  /-- What holds of the results. -/
  result : β → Prop
  /-- What holds of the errors. -/
  error : Error → Prop

/-- The plan calls only for inputs that are as required, and ends as required if the names and the results of the calls
are as required. -/
def Meets (S : Spec ι β) : Plan ι β β → Prop
  | done b => S.result b
  | fail e => S.error e
  | draw k => ∀ n, S.name n → (k n).Meets S
  | call i k => S.input i ∧ ∀ b, S.result b → (k b).Meets S

/-- The plan ends with a result that has the property, if the results of the calls are related to their inputs. -/
def Yields (R : ι → β → Prop) (Q : β → Prop) : Plan ι β β → Prop
  | done b => Q b
  | fail _ => True
  | draw k => ∀ n, (k n).Yields R Q
  | call i k => ∀ b, R i b → (k b).Yields R Q

/-- The two plans do the same, with calls for related inputs. They may fail with different errors. -/
def Alike (R : ι → ι → Prop) : Plan ι β α → Plan ι β α → Prop
  | done a, done b => a = b
  | fail _, fail _ => True
  | draw k, draw l => ∀ n, (k n).Alike R (l n)
  | call i k, call j l => R i j ∧ ∀ b, (k b).Alike R (l b)
  | _, _ => False

section Rules

variable {w : ι → Nat} {bound : Nat} {S : Spec ι β} {R : ι → β → Prop} {Q : β → Prop} {T : ι → ι → Prop}

theorem Within.mono {p : Plan ι β α} (h : p.Within w bound) {bound' : Nat} (hb : bound ≤ bound') :
    p.Within w bound' := by
  induction p generalizing bound bound' with
  | done a => trivial
  | fail e => trivial
  | draw k ih => exact fun n => ih n (h n) hb
  | call i k ih => exact ⟨Nat.le_trans h.1 hb, fun b => ih b (h.2 b) (Nat.sub_le_sub_right hb (w i))⟩

theorem Within.withinIf {p : Plan ι β α} (h : p.Within w bound) : p.WithinIf R w bound := by
  induction p generalizing bound with
  | done a => trivial
  | fail e => trivial
  | draw k ih => exact fun n => ih n (h n)
  | call i k ih => exact ⟨h.1, fun b _ => ih b (h.2 b)⟩

theorem WithinIf.mono {p : Plan ι β α} (h : p.WithinIf R w bound) {bound' : Nat} (hb : bound ≤ bound') :
    p.WithinIf R w bound' := by
  induction p generalizing bound bound' with
  | done a => trivial
  | fail e => trivial
  | draw k ih => exact fun n => ih n (h n) hb
  | call i k ih => exact ⟨Nat.le_trans h.1 hb, fun b hR => ih b (h.2 b hR) (Nat.sub_le_sub_right hb (w i))⟩

/-- What a plan yields is given to the next one. -/
theorem WithinIf.bind {p : Plan ι β β} {k : β → Plan ι β α} {bound' : Nat} (hp : p.WithinIf R w bound)
    (hq : p.Yields R Q) (hk : ∀ b, Q b → (k b).WithinIf R w bound') : (p >>= k).WithinIf R w (bound + bound') := by
  induction p generalizing bound with
  | done b => exact (hk b hq).mono (Nat.le_add_left _ _)
  | fail e => trivial
  | draw j ih => exact fun n => ih n (hp n) (hq n)
  | call i j ih =>
    obtain ⟨hi, hj⟩ := hp
    refine ⟨by omega, fun b hR => ?_⟩
    exact (ih b (hj b hR) (hq b hR)).mono (by omega)

theorem yields_true (p : Plan ι β β) : p.Yields R fun _ => True := by
  induction p with
  | done b => trivial
  | fail e => trivial
  | draw k ih => exact ih
  | call i k ih => exact fun b _ => ih b

theorem WithinIf.seq {p : Plan ι β β} {k : β → Plan ι β α} {bound' : Nat} (hp : p.WithinIf R w bound)
    (hk : ∀ b, (k b).WithinIf R w bound') : (p >>= k).WithinIf R w (bound + bound') :=
  hp.bind p.yields_true fun b _ => hk b

@[simp] theorem withinIf_pure (a : α) : (pure a : Plan ι β α).WithinIf R w bound := trivial

@[simp] theorem withinIf_ask (i : ι) : (ask i : Plan ι β β).WithinIf R w bound ↔ w i ≤ bound := by
  simp [ask, WithinIf]

@[simp] theorem withinIf_ask_bind (i : ι) (k : β → Plan ι β α) :
    (ask i >>= k).WithinIf R w bound ↔ w i ≤ bound ∧ ∀ b, R i b → (k b).WithinIf R w (bound - w i) := Iff.rfl

@[simp] theorem within_pure (a : α) : (pure a : Plan ι β α).Within w bound := trivial

@[simp] theorem within_fail (e : Error) : (fail e : Plan ι β α).Within w bound := trivial

@[simp] theorem within_ask (i : ι) : (ask i : Plan ι β β).Within w bound ↔ w i ≤ bound := by simp [ask, Within]

@[simp] theorem within_fresh_bind (k : String → Plan ι β α) :
    (fresh >>= k).Within w bound ↔ ∀ n, (k n).Within w bound := Iff.rfl

@[simp] theorem within_ask_bind (i : ι) (k : β → Plan ι β α) :
    (ask i >>= k).Within w bound ↔ w i ≤ bound ∧ ∀ b, (k b).Within w (bound - w i) := Iff.rfl

@[simp] theorem meets_pure (b : β) : (pure b : Plan ι β β).Meets S ↔ S.result b := Iff.rfl

@[simp] theorem meets_fail (e : Error) : (fail e : Plan ι β β).Meets S ↔ S.error e := Iff.rfl

@[simp] theorem meets_ask (i : ι) : (ask i : Plan ι β β).Meets S ↔ S.input i := by simp [ask, Meets]

@[simp] theorem meets_fresh_bind (k : String → Plan ι β β) :
    (fresh >>= k).Meets S ↔ ∀ n, S.name n → (k n).Meets S := Iff.rfl

@[simp] theorem meets_ask_bind (i : ι) (k : β → Plan ι β β) :
    (ask i >>= k).Meets S ↔ S.input i ∧ ∀ b, S.result b → (k b).Meets S := Iff.rfl

@[simp] theorem yields_pure (b : β) : (pure b : Plan ι β β).Yields R Q ↔ Q b := Iff.rfl

@[simp] theorem yields_fail (e : Error) : (fail e : Plan ι β β).Yields R Q := trivial

@[simp] theorem yields_ask (i : ι) : (ask i : Plan ι β β).Yields R Q ↔ ∀ b, R i b → Q b := Iff.rfl

@[simp] theorem yields_fresh_bind (k : String → Plan ι β β) :
    (fresh >>= k).Yields R Q ↔ ∀ n, (k n).Yields R Q := Iff.rfl

@[simp] theorem yields_ask_bind (i : ι) (k : β → Plan ι β β) :
    (ask i >>= k).Yields R Q ↔ ∀ b, R i b → (k b).Yields R Q := Iff.rfl

@[simp] theorem alike_pure {a b : α} : (pure a : Plan ι β α).Alike T (pure b) ↔ a = b := Iff.rfl

@[simp] theorem alike_fail (e e' : Error) : (fail e : Plan ι β α).Alike T (fail e') := trivial

@[simp] theorem alike_ask {i j : ι} : (ask i : Plan ι β β).Alike T (ask j) ↔ T i j := by simp [ask, Alike]

@[simp] theorem alike_fresh_bind (k l : String → Plan ι β α) :
    (fresh >>= k).Alike T (fresh >>= l) ↔ ∀ n, (k n).Alike T (l n) := Iff.rfl

@[simp] theorem alike_ask_bind (i j : ι) (k l : β → Plan ι β α) :
    (ask i >>= k).Alike T (ask j >>= l) ↔ T i j ∧ ∀ b, (k b).Alike T (l b) := Iff.rfl

end Rules

/-- The plan that ends at once with the outcome of a computation. -/
def ofOutcome : Except Error α → Plan ι β α
  | .ok a => done a
  | .error e => fail e

end Plan

/-! ### Outcomes -/

/-- A computation gives a value with the one property, or fails with an error that has the other. -/
def Outcome {α : Type} (Q : α → Prop) (E : Error → Prop) : Except Error α → Prop
  | .ok a => Q a
  | .error e => E e

namespace Outcome

variable {α β : Type} {P : α → Prop} {Q : β → Prop} {E F : Error → Prop} {x : Except Error α}

theorem of_cases (hok : ∀ a, x = .ok a → P a) (herror : ∀ e, x = .error e → E e) : Outcome P E x := by
  cases x with
  | ok a => exact hok a rfl
  | error e => exact herror e rfl

theorem of_ok {a : α} (hx : Outcome P E x) (h : x = .ok a) : P a := by
  rw [h] at hx
  exact hx

theorem bind {k : α → Except Error β} (hx : Outcome P E x) (hk : ∀ a, P a → Outcome Q E (k a)) :
    Outcome Q E (x >>= k) := by
  cases x with
  | ok a => exact hk a hx
  | error e => exact hx

theorem mono {P' : α → Prop} (hx : Outcome P E x) (hP : ∀ a, P a → P' a) (hE : ∀ e, E e → F e) :
    Outcome P' F x := by
  cases x with
  | ok a => exact hP a hx
  | error e => exact hE e hx

end Outcome

/-! ### The machine -/

/-- A machine that follows plans. -/
structure Machine (ι β : Type) where
  /-- The plan that it follows. -/
  plan : Plan ι β β
  /-- The plans that wait for the result, the innermost first. -/
  waiting : List (β → Plan ι β β)
  /-- The supply of names. -/
  supply : NameSupply
  /-- The number of rules that have been applied. -/
  applied : Nat

namespace Machine

/-- The machine that has to find the result of an input. -/
def start (i : ι) (s : NameSupply) : Machine ι β := ⟨.ask i, [], s, 0⟩

/-- The machine that has come to the end of all plans. -/
def final (r : Except Error β) (s : NameSupply) (n : Nat) : Machine ι β := ⟨.ofOutcome r, [], s, n⟩

/-- One step. A call applies a rule, a result goes to the plan that waits for it, and an error ends that plan too. -/
def step (rules : ι → Plan ι β β) : Machine ι β → Machine ι β
  | ⟨.draw k, K, s, n⟩ => ⟨k s.draw.1, K, s.draw.2, n⟩
  | ⟨.call i k, K, s, n⟩ => ⟨rules i, k :: K, s, n + 1⟩
  | ⟨.done b, k :: K, s, n⟩ => ⟨k b, K, s, n⟩
  | ⟨.fail e, _ :: K, s, n⟩ => ⟨.fail e, K, s, n⟩
  | m => m

/-- The second machine is the first one some steps later. -/
def Reaches (rules : ι → Plan ι β β) (m m' : Machine ι β) : Prop := ∃ k, (step rules)^[k] m = m'

variable {rules : ι → Plan ι β β} {m m' m'' : Machine ι β}

theorem Reaches.refl : Reaches rules m m := ⟨0, rfl⟩

theorem Reaches.trans (h : Reaches rules m m') (h' : Reaches rules m' m'') : Reaches rules m m'' := by
  obtain ⟨k, rfl⟩ := h
  obtain ⟨l, rfl⟩ := h'
  exact ⟨l + k, Function.iterate_add_apply _ l k m⟩

theorem Reaches.head (h : Reaches rules (step rules m) m') : Reaches rules m m' :=
  Reaches.trans ⟨1, rfl⟩ h

/-- From the input and the supply, the machine halts with the outcome and the supply after it, and it has not applied
more rules than the bound. -/
def Halts (rules : ι → Plan ι β β) (i : ι) (s : NameSupply) (bound : Nat) (r : Except Error β × NameSupply) : Prop :=
  ∃ n, n ≤ bound ∧ Reaches rules (start i s) (final r.1 r.2 n)

/-- The plan of a machine is as required, and so are those that wait, if they get a result that is. -/
def Meets (S : Plan.Spec ι β) (m : Machine ι β) : Prop :=
  m.plan.Meets S ∧ ∀ k ∈ m.waiting, ∀ b, S.result b → (k b).Meets S

variable {S : Plan.Spec ι β}

theorem Meets.step (hname : ∀ s : NameSupply, S.name s.draw.1) (hr : ∀ i, S.input i → (rules i).Meets S)
    (h : m.Meets S) : (step rules m).Meets S := by
  obtain ⟨p, K, s, n⟩ := m
  cases p with
  | draw k => exact ⟨h.1 _ (hname s), h.2⟩
  | call i k => exact ⟨hr i h.1.1, List.forall_mem_cons.2 ⟨h.1.2, h.2⟩⟩
  | done b =>
    cases K with
    | nil => exact h
    | cons k K => exact ⟨h.2 k List.mem_cons_self b h.1, fun j hj => h.2 j (List.mem_cons_of_mem k hj)⟩
  | fail e =>
    cases K with
    | nil => exact h
    | cons k K => exact ⟨h.1, fun j hj => h.2 j (List.mem_cons_of_mem k hj)⟩

theorem Meets.reaches (hname : ∀ s : NameSupply, S.name s.draw.1) (hr : ∀ i, S.input i → (rules i).Meets S)
    (h : m.Meets S) (hm : Reaches rules m m') : m'.Meets S := by
  obtain ⟨k, rfl⟩ := hm
  induction k generalizing m with
  | zero => exact h
  | succ k ih => exact ih (h.step hname hr)

end Machine

/-- Each value of the function is what the plan for the input evaluates to, and the inputs that the plan calls for
weigh together less than the input. -/
structure Obeys (f : ι → Fresh β) (rules : ι → Plan ι β β) (w : ι → Nat) : Prop where
  /-- The function goes by the rules. -/
  eval_eq : ∀ i, f i = (rules i).eval f
  /-- The calls of a rule weigh less than its input. -/
  within : ∀ i, ∃ bound, bound < w i ∧ (rules i).Within w bound

/-- The same, for rules that may call for inputs made of the results of earlier calls. The relation holds of the inputs
and the results of the function, and only such results are taken into account for the weight of the calls. -/
structure ObeysIf (R : ι → β → Prop) (f : ι → Fresh β) (rules : ι → Plan ι β β) (w : ι → Nat) : Prop where
  /-- The function goes by the rules. -/
  eval_eq : ∀ i, f i = (rules i).eval f
  /-- The results of the function are related to their inputs. -/
  related : ∀ i s b, ((f i).runWith s).1 = .ok b → R i b
  /-- The calls of a rule weigh less than its input. -/
  within : ∀ i, ∃ bound, bound < w i ∧ (rules i).WithinIf R w bound

namespace ObeysIf

open Machine

variable {R : ι → β → Prop} {f : ι → Fresh β} {rules : ι → Plan ι β β} {w : ι → Nat}

/-- A plan whose calls weigh no more than the bound is followed to its end, and no more rules are applied than the
bound. What waits for the result is left alone. -/
theorem reaches (h : ObeysIf R f rules w) {bound : Nat} {p : Plan ι β β} (hp : p.WithinIf R w bound)
    (K : List (β → Plan ι β β)) (s : NameSupply) (n : Nat) :
    ∃ n', n' ≤ n + bound ∧ Reaches rules ⟨p, K, s, n⟩
      ⟨.ofOutcome ((p.eval f).runWith s).1, K, ((p.eval f).runWith s).2, n'⟩ := by
  -- The calls are bounded by the bound, and what follows a call is a part of the plan with a smaller bound.
  induction bound using Nat.strongRecOn generalizing p K s n with
  | ind bound ih =>
  induction p generalizing s n with
  | done b => exact ⟨n, Nat.le_add_right n bound, .refl⟩
  | fail e => exact ⟨n, Nat.le_add_right n bound, .refl⟩
  | draw k ihk =>
    obtain ⟨n', hn, hr⟩ := ihk s.draw.1 (hp _) s.draw.2 n
    exact ⟨n', hn, hr.head⟩
  | call i k _ =>
    obtain ⟨hi, hk⟩ := hp
    obtain ⟨below, hlt, hw⟩ := h.within i
    obtain ⟨n₁, hn₁, hr₁⟩ := ih below (by omega) hw (k :: K) s (n + 1)
    have hbind : ((Plan.call i k).eval f).runWith s = (f i >>= fun b => (k b).eval f).runWith s := rfl
    rw [hbind, Fresh.runWith_bind]
    rw [← h.eval_eq i] at hr₁
    have hcall : Reaches rules ⟨.call i k, K, s, n⟩ _ := hr₁.head
    cases hb : (f i).runWith s with
    | mk r s₁ =>
      rw [hb] at hcall
      cases r with
      | error e => exact ⟨n₁, by omega, hcall.trans (Reaches.head .refl)⟩
      | ok b =>
        have hR : R i b := h.related i s b (congrArg Prod.fst hb)
        obtain ⟨n₂, hn₂, hr₂⟩ := ih (bound - w i) (by omega) (hk b hR) K s₁ n₁
        exact ⟨n₂, by omega, hcall.trans hr₂.head⟩

/-- The machine comes to a halt with the value of the function, and has not applied more rules than the input weighs. -/
theorem halts (h : ObeysIf R f rules w) (i : ι) (s : NameSupply) : Halts rules i s (w i) ((f i).runWith s) := by
  have hask : (Plan.ask i : Plan ι β β).WithinIf R w (w i) := (Plan.withinIf_ask i).2 (Nat.le_refl _)
  obtain ⟨n, hn, hr⟩ := h.reaches hask [] s 0
  rw [Plan.eval_ask] at hr
  exact ⟨n, by omega, hr⟩

end ObeysIf

namespace Obeys

open Machine

variable {f : ι → Fresh β} {rules : ι → Plan ι β β} {w : ι → Nat}

theorem obeysIf (h : Obeys f rules w) : ObeysIf (fun _ _ => True) f rules w where
  eval_eq := h.eval_eq
  related _ _ _ _ := trivial
  within i := by
    obtain ⟨bound, hlt, hw⟩ := h.within i
    exact ⟨bound, hlt, hw.withinIf⟩

theorem halts (h : Obeys f rules w) (i : ι) (s : NameSupply) : Halts rules i s (w i) ((f i).runWith s) :=
  h.obeysIf.halts i s

/-- The outcome of the function is as required, if all rules are: by what one step of the machine keeps. -/
theorem meets (h : Obeys f rules w) {S : Plan.Spec ι β} (hname : ∀ s : NameSupply, S.name s.draw.1)
    (hr : ∀ i, S.input i → (rules i).Meets S) {i : ι} (hi : S.input i) (s : NameSupply) :
    Outcome S.result S.error ((f i).runWith s).1 := by
  obtain ⟨n, -, hreaches⟩ := h.halts i s
  have hstart : (start i s : Machine ι β).Meets S := ⟨(Plan.meets_ask i).2 hi, List.forall_mem_nil _⟩
  have hfinal : (Plan.ofOutcome ((f i).runWith s).1 : Plan ι β β).Meets S := (hstart.reaches hname hr hreaches).1
  cases hf : ((f i).runWith s).1 with
  | ok b =>
    rw [hf] at hfinal
    exact hfinal
  | error e =>
    rw [hf] at hfinal
    exact hfinal

theorem weight_pos (h : Obeys f rules w) (i : ι) : 0 < w i := by
  obtain ⟨bound, hlt, -⟩ := h.within i
  omega

/-- The result of a plan has the property that the plan yields. -/
theorem eval_yields (h : Obeys f rules w) {R : ι → β → Prop} (hr : ∀ i, (rules i).Yields R (R i)) {bound : Nat}
    {p : Plan ι β β} {Q : β → Prop} (hp : p.Within w bound) (hq : p.Yields R Q) {s s' : NameSupply} {b : β}
    (hb : (p.eval f).runWith s = (.ok b, s')) : Q b := by
  induction bound using Nat.strongRecOn generalizing p Q s s' b with
  | ind bound ih =>
  induction p generalizing s with
  | done a =>
    cases hb
    exact hq
  | fail e => cases hb
  | draw k ihk => exact ihk s.draw.1 (hp _) (hq _) hb
  | call i k _ =>
    obtain ⟨hi, hk⟩ := hp
    obtain ⟨below, hlt, hw⟩ := h.within i
    obtain ⟨a, s₁, ha, hka⟩ := Fresh.runWith_bind_eq_ok.1 hb
    have hR : R i a := by
      rw [h.eval_eq i] at ha
      exact ih below (by omega) hw (hr i) ha
    have := h.weight_pos i
    exact ih (bound - w i) (by omega) (hk a) (hq a hR) hka

/-- The results of the function are related to their inputs, if each rule keeps that. -/
theorem yields (h : Obeys f rules w) {R : ι → β → Prop} (hr : ∀ i, (rules i).Yields R (R i)) {i : ι} {s : NameSupply}
    {b : β} (hb : ((f i).runWith s).1 = .ok b) : R i b := by
  obtain ⟨bound, -, hw⟩ := h.within i
  rw [h.eval_eq i] at hb
  exact h.eval_yields hr hw (hr i) (Prod.ext hb rfl)

/-- Plans that do the same agree, if the function agrees on the inputs that they call for. -/
theorem eval_agrees {T : ι → ι → Prop} {bound : Nat} {p q : Plan ι β β} (hp : p.Within w bound) (h : p.Alike T q)
    (hT : ∀ i j, w i ≤ bound → T i j → Fresh.Agree (f i) (f j)) : Fresh.Agree (p.eval f) (q.eval f) := by
  induction p generalizing q bound with
  | done a =>
    cases q with
    | done b =>
      cases h
      exact .refl _
    | fail | draw | call => exact h.elim
  | fail e =>
    cases q with
    | fail e' => exact .throw e e'
    | done | draw | call => exact h.elim
  | draw k ih =>
    cases q with
    | draw l => exact .bind (.refl _) fun n => ih n (hp n) (h n) hT
    | done | fail | call => exact h.elim
  | call i k ih =>
    cases q with
    | call j l =>
      have hrest (i' j' : ι) (hi' : w i' ≤ bound - w i) : T i' j' → Fresh.Agree (f i') (f j') := hT i' j' (by omega)
      exact .bind (hT i j hp.1 h.1) fun b => ih b (hp.2 b) (h.2 b) hrest
    | done | fail | draw => exact h.elim

/-- **Related inputs have the same results**, if the rules for them do the same, or if the rule for the first of them
only calls for another input that is related to the second. The weight of the first input decreases in both cases. -/
theorem agrees (h : Obeys f rules w) {T : ι → ι → Prop}
    (hT : ∀ i j, T i j → (rules i).Alike T (rules j) ∨ ∃ k, rules i = .ask k ∧ T k j) {i j : ι} (hij : T i j) :
    Fresh.Agree (f i) (f j) := by
  induction hw : w i using Nat.strongRecOn generalizing i j with
  | ind n ih =>
  subst hw
  obtain ⟨bound, hlt, hwithin⟩ := h.within i
  rcases hT i j hij with halike | ⟨k, hk, hkj⟩
  · rw [h.eval_eq i, h.eval_eq j]
    exact eval_agrees hwithin halike fun i' j' hi' hij' => ih (w i') (by omega) hij' rfl
  · rw [hk, Plan.within_ask] at hwithin
    rw [h.eval_eq i, hk, Plan.eval_ask]
    exact ih (w k) (by omega) hkj rfl

end Obeys

/-! ### Rewriting of spines -/

namespace Term

open Plan

/-- What there is to do for a rewriting of spines: a head with its arguments, or the arguments that are left, for a
term that has been rewritten. -/
inductive Task where
  /-- To rewrite `h` applied to `as`. -/
  | spine (h : Term) (as : List Term)
  /-- To apply `t` to the rewritten `as`. -/
  | onto (t : Term) (as : List Term)

/-- How the arguments that are left are put onto a term, one by one. -/
def ontoPlan (t : Term) : List Term → Plan Task Term Term
  | [] => return t
  | a :: as => do
    let ta ← ask (.spine a [])
    ask (.onto (app t ta) as)

end Term

end Combinatory
