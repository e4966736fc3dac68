import Combinatory.Pattern.RuleTable
import Combinatory.Proofs.NameSupply
import Mathlib.Tactic.Common

/-!
# Scripts

What a rewriting does that is made of rule tables: it reads what a pattern has bound, calls for tables, keeps a context
and ends with a result or an error. It may also run into a fault, which is neither: something that the rewriting takes
for granted is not there, and nothing can go on.

## The model

A `Script` says what is done up to the next call, and what then depends on the answer. `Script.Runs` says what a script
runs to, a result or a fault, if its calls are answered by scripts in turn. A script that goes on for ever runs to
nothing. `Script.run` is the same as a function, with no value in that case. An `Attempt` is a script that may fail with
an error, and a `Handling` has a context as well, as handlers of rules do.

## What is proved

* `Script.run_eq_some_iff` — the value of `Script.run` is what the script runs to.
* `Script.run_bind`, `Handling.exec_bind` — scripts that stand one after the other are run one after the other. With one
  equation for each of the other ways to make a script, a run is computed without a look at how it is made.
-/

namespace Combinatory

/-- What a rewriting takes for granted and does not find. -/
inductive Fault where
  /-- What a handler reads is not bound, or not as it should be. -/
  | binding (fault : BindingFault)
  /-- A table cannot be made. -/
  | table (error : Error)
  /-- The head cannot stand over these terms. -/
  | misfit (head : Head) (args : List Term)
  /-- There is nothing at this position. -/
  | position (i : Nat)
  deriving DecidableEq, Repr

/-- A script that calls for `c : C`, which is answered by an `A c`. -/
inductive Script (C : Type) (A : C → Type) (α : Type) where
  /-- It ends with a result. -/
  | done (a : α)
  /-- It runs into a fault. -/
  | fault (f : Fault)
  /-- It calls for something. -/
  | call (c : C) (k : A c → Script C A α)

variable {C : Type} {A : C → Type} {σ α β γ : Type}

namespace Script

/-- One script after another. -/
def bind : Script C A α → (α → Script C A β) → Script C A β
  | done a, k => k a
  | fault f, _ => fault f
  | call c j, k => call c fun a => (j a).bind k

instance : Monad (Script C A) where
  pure := done
  bind := bind

theorem bind_done (p : Script C A α) : p.bind done = p := by
  induction p with
  | done _ | fault _ => rfl
  | call c k ih => exact congrArg (call c) (funext ih)

theorem bind_bind (p : Script C A α) (j : α → Script C A β) (k : β → Script C A γ) :
    (p.bind j).bind k = p.bind fun a => (j a).bind k := by
  induction p with
  | done _ | fault _ => rfl
  | call c _ ih => exact congrArg (call c) (funext ih)

instance : LawfulMonad (Script C A) := LawfulMonad.mk' (Script C A) bind_done (fun _ _ => rfl) bind_bind

/-- What a script runs to, where the calls are answered by the rules. -/
inductive Runs (rules : (c : C) → Script C A (A c)) : {α : Type} → Script C A α → Except Fault α → Prop where
  /-- It ends with its result. -/
  | done {α : Type} (a : α) : Runs rules (.done a) (.ok a)
  /-- It runs into its fault. -/
  | fault {α : Type} (f : Fault) : Runs rules (.fault f : Script C A α) (.error f)
  /-- It goes on with what answers its call. -/
  | call {α : Type} {c : C} {k : A c → Script C A α} {a : A c} {r : Except Fault α} :
    Runs rules (rules c) (.ok a) → Runs rules (k a) r → Runs rules (.call c k) r
  /-- It ends with the fault that its call runs into. -/
  | call_fault {α : Type} {c : C} {k : A c → Script C A α} {f : Fault} :
    Runs rules (rules c) (.error f) → Runs rules (.call c k) (.error f)

section Runs

variable {rules : (c : C) → Script C A (A c)} {p : Script C A α} {r r' : Except Fault α}

theorem Runs.unique (h : Runs rules p r) (h' : Runs rules p r') : r = r' := by
  induction h with
  | done a | fault f =>
    cases h'
    rfl
  | call _ _ ihc ihk =>
    cases h' with
    | call hc hk =>
      cases ihc hc
      exact ihk hk
    | call_fault hc => cases ihc hc
  | call_fault _ ih =>
    cases h' with
    | call hc _ => cases ih hc
    | call_fault hc =>
      cases ih hc
      rfl

theorem runs_call_iff {c : C} {k : A c → Script C A α} : Runs rules (call c k) r ↔
    (∃ a, Runs rules (rules c) (.ok a) ∧ Runs rules (k a) r) ∨ ∃ f, Runs rules (rules c) (.error f) ∧ r = .error f := by
  constructor
  · intro h
    cases h with
    | call hc hk => exact .inl ⟨_, hc, hk⟩
    | call_fault hc => exact .inr ⟨_, hc, rfl⟩
  · rintro (⟨a, hc, hk⟩ | ⟨f, hc, rfl⟩)
    · exact .call hc hk
    · exact .call_fault hc

end Runs

open Classical in
/-- What a script runs to, if it runs to anything. -/
noncomputable def run (rules : (c : C) → Script C A (A c)) (p : Script C A α) : ExceptT Fault Option α :=
  ExceptT.mk (if h : ∃ r, Runs rules p r then some h.choose else none)

theorem run_eq_some_iff {rules : (c : C) → Script C A (A c)} {p : Script C A α} {r : Except Fault α} :
    (p.run rules).run = some r ↔ Runs rules p r := by
  unfold run
  split
  · next h =>
    constructor
    · intro hr
      cases hr
      exact h.choose_spec
    · intro hr
      exact congrArg some (h.choose_spec.unique hr)
  · next h =>
    constructor
    · nofun
    · intro hr
      exact absurd ⟨r, hr⟩ h

variable (rules : (c : C) → Script C A (A c))

@[simp] theorem run_pure (a : α) : (pure a : Script C A α).run rules = pure a := run_eq_some_iff.2 (.done a)

@[simp] theorem run_fault (f : Fault) : (fault f : Script C A α).run rules = throw f := run_eq_some_iff.2 (.fault f)

theorem run_call (c : C) (k : A c → Script C A α) :
    (call c k).run rules = (rules c).run rules >>= fun a => (k a).run rules := by
  refine ExceptT.ext (Option.ext fun r => ?_)
  rw [run_eq_some_iff, runs_call_iff, ExceptT.run_bind, Option.bind_eq_bind, Option.bind_eq_some_iff]
  simp only [run_eq_some_iff]
  constructor
  · rintro (⟨a, hc, hk⟩ | ⟨f, hc, rfl⟩)
    · exact ⟨.ok a, hc, run_eq_some_iff.2 hk⟩
    · exact ⟨.error f, hc, rfl⟩
  · rintro ⟨f | a, hc, hk⟩
    · cases hk
      exact .inr ⟨f, hc, rfl⟩
    · exact .inl ⟨a, hc, run_eq_some_iff.1 hk⟩

@[simp] theorem run_bind (p : Script C A α) (k : α → Script C A β) :
    (p >>= k).run rules = p.run rules >>= fun a => (k a).run rules := by
  induction p with
  | done a =>
    change (k a).run rules = (pure a : Script C A α).run rules >>= _
    rw [run_pure, pure_bind]
  | fault f =>
    change (fault f : Script C A β).run rules = _
    rw [run_fault, run_fault]
    rfl
  | call c j ih =>
    rw [run_call, bind_assoc, ← bind_congr ih]
    exact run_call rules c _

end Script

/-! ### Scripts that may fail -/

/-- A script that may fail with an error. -/
abbrev Attempt (C : Type) (A : C → Type) (α : Type) : Type := ExceptT Error (Script C A) α

/-- What comes of a script that may fail: nothing at all, a fault, an error or a result. -/
abbrev Run (α : Type) : Type := ExceptT Error (ExceptT Fault Option) α

namespace Run

/-- The run that has ended with the outcome. -/
def ofOutcome (r : Except Error α) : Run α := ExceptT.mk (pure r)

@[simp] theorem ofOutcome_ok (a : α) : ofOutcome (.ok a) = pure a := rfl

@[simp] theorem ofOutcome_pure (a : α) : ofOutcome (pure a) = pure a := rfl

@[simp] theorem ofOutcome_error (e : Error) : (ofOutcome (.error e) : Run α) = throw e := rfl

@[simp] theorem ofOutcome_bind (r : Except Error α) (k : α → Except Error β) :
    ofOutcome (r >>= k) = ofOutcome r >>= fun a => ofOutcome (k a) := by
  cases r <;> rfl

@[simp] theorem ofOutcome_map (f : α → β) (r : Except Error α) : ofOutcome (f <$> r) = f <$> ofOutcome r := by
  cases r <;> rfl

@[simp] theorem throw_bind (e : Error) (k : α → StateT σ Run β) : (throw e >>= k : StateT σ Run β) = throw e := rfl

/-- The run of a computation that draws names. What is left of the supply after an error is of no use. -/
def ofFresh (x : Fresh α) : StateT NameSupply Run α := fun s => (·, (x.runWith s).2) <$> ofOutcome (x.runWith s).1

@[simp] theorem ofFresh_pure (a : α) : ofFresh (pure a) = pure a := rfl

@[simp] theorem ofFresh_throw (e : Error) : (ofFresh (throw e) : StateT NameSupply Run α) = throw e := rfl

@[simp] theorem ofFresh_name : ofFresh Fresh.name = modifyGet NameSupply.draw := rfl

@[simp] theorem fst_run_ofFresh (x : Fresh α) (s : NameSupply) :
    (fun q => q.1) <$> (ofFresh x).run s = ofOutcome (x.runWith s).1 := by
  rw [StateT.run, ofFresh, Functor.map_map, id_map']

@[simp] theorem ofFresh_bind (x : Fresh α) (k : α → Fresh β) :
    ofFresh (x >>= k) = ofFresh x >>= fun a => ofFresh (k a) := by
  funext s
  change _ = ofFresh x s >>= fun q => ofFresh (k q.1) q.2
  rw [ofFresh, ofFresh, Fresh.runWith_bind]
  rcases x.runWith s with ⟨e | a, s'⟩ <;> rfl

@[simp] theorem ofFresh_map (f : α → β) (x : Fresh α) : ofFresh (f <$> x) = f <$> ofFresh x := by
  rw [map_eq_pure_bind, ofFresh_bind, map_eq_pure_bind]
  rfl

end Run

namespace Attempt

/-- Follows a script that may fail. -/
noncomputable def exec (rules : (c : C) → Script C A (A c)) (p : Attempt C A α) : Run α := ExceptT.mk (p.run.run rules)

variable (rules : (c : C) → Script C A (A c))

@[simp] theorem exec_pure (a : α) : exec rules (pure a) = pure a :=
  Script.run_pure rules (Except.ok a)

@[simp] theorem exec_throw (e : Error) : exec rules (throw e : Attempt C A α) = throw e :=
  Script.run_pure rules (Except.error e)

@[simp] theorem exec_bind (p : Attempt C A α) (k : α → Attempt C A β) :
    exec rules (p >>= k) = exec rules p >>= fun a => exec rules (k a) := by
  refine (Script.run_bind rules p.run _).trans (bind_congr fun r => ?_)
  cases r with
  | error e => exact Script.run_pure rules (Except.error e)
  | ok a => rfl

@[simp] theorem exec_map (f : α → β) (p : Attempt C A α) : exec rules (f <$> p) = f <$> exec rules p := by
  refine (Script.run_bind rules p.run _).trans (bind_congr fun r => ?_)
  cases r with
  | error e => exact Script.run_pure rules (Except.error e)
  | ok a => exact Script.run_pure rules (Except.ok (f a))

end Attempt

/-! ### Scripts with a context -/

/-- A script that keeps a context. What is left of the context after an error is of no use. -/
abbrev Handling (C : Type) (A : C → Type) (σ α : Type) : Type := StateT σ (Attempt C A) α

namespace Handling

/-- A script with a context of its own, which is given up in the end. -/
def inContext (s : σ) (p : Handling C A σ α) : Attempt C A α := Prod.fst <$> p s

/-- Runs into a fault. -/
def fault (f : Fault) : Handling C A σ α := fun _ => ExceptT.mk (Script.fault f)

/-- Follows a script from any context. -/
noncomputable def exec (rules : (c : C) → Script C A (A c)) (p : Handling C A σ α) : StateT σ Run α := fun s =>
  Attempt.exec rules (p s)

variable (rules : (c : C) → Script C A (A c))

@[simp] theorem exec_pure (a : α) : exec rules (pure a : Handling C A σ α) = pure a :=
  funext fun s => Attempt.exec_pure rules (a, s)

@[simp] theorem exec_throw (e : Error) : exec rules (throw e : Handling C A σ α) = throw e :=
  funext fun _ => Script.run_pure rules (Except.error e)

@[simp] theorem exec_bind (p : Handling C A σ α) (k : α → Handling C A σ β) :
    exec rules (p >>= k) = exec rules p >>= fun a => exec rules (k a) :=
  funext fun s => Attempt.exec_bind rules (p s) _

@[simp] theorem exec_map (f : α → β) (p : Handling C A σ α) : exec rules (f <$> p) = f <$> exec rules p := by
  rw [map_eq_pure_bind, exec_bind, map_eq_pure_bind]
  exact bind_congr fun a => exec_pure rules (f a)

@[simp] theorem exec_modifyGet (f : σ → α × σ) :
    exec rules (modifyGet f : Handling C A σ α) = modifyGet f :=
  funext fun s => Attempt.exec_pure rules (f s)

@[simp] theorem exec_modify (f : σ → σ) : exec rules (modify f : Handling C A σ PUnit) = modify f :=
  exec_modifyGet rules fun s => (PUnit.unit, f s)

@[simp] theorem exec_getModify (f : σ → σ) : exec rules (getModify f : Handling C A σ σ) = getModify f :=
  exec_modifyGet rules fun s => (s, f s)

@[simp] theorem exec_get : exec rules (get : Handling C A σ σ) = get :=
  funext fun s => Attempt.exec_pure rules (s, s)

@[simp] theorem exec_set (s : σ) : exec rules (set s : Handling C A σ PUnit) = set s :=
  funext fun _ => Attempt.exec_pure rules (PUnit.unit, s)

@[simp] theorem exec_liftM (p : Attempt C A α) :
    exec rules (liftM p : Handling C A σ α) = liftM (Attempt.exec rules p) := by
  funext s
  refine (Attempt.exec_bind rules p _).trans (bind_congr fun a => ?_)
  exact Attempt.exec_pure rules (a, s)

@[simp] theorem exec_inContext (s : σ) (p : Handling C A σ α) :
    Attempt.exec rules (inContext s p) = (exec rules p).run' s :=
  Attempt.exec_map rules Prod.fst (p s)

@[simp] theorem exec_fault (f : Fault) : exec rules (fault f : Handling C A σ α) = fun _ => ExceptT.mk (throw f) :=
  funext fun _ => Script.run_fault rules f

end Handling

end Combinatory
