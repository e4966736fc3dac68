import Combinatory.Proofs.DecompilationSteps
import Combinatory.Proofs.Tables.BoundNames

/-!
# The tables of decompilation

Decompilation by tables comes to what `Term.decompile` gives.

## The model

`Plan.follow` is what comes of a plan if its calls are answered by runs. `decompileByTables` decompiles by the tables
what a task says, from the spine of a head and its arguments.

## The proof

A spine is left to the rules for its head; the others are skipped, in groups. Then there is one row for each head and
number of arguments, and what the table does there is what the plan of `Term.decompilePlan` says for it. Since the calls
of every plan weigh less than its task, decompilation is the only way to go by the plans.

## What is proved

* `Obeys.eq_ofFresh` — rules whose calls weigh less than their inputs can be followed in one way only.
* `decompileByTables_eq_follow` — the tables go by the plans of decompilation.
* `exec_decompile` — decompilation ends without a fault.
-/

namespace Combinatory

/-! ### Following plans -/

namespace Plan

variable {ι α β γ : Type}

/-- What comes of a plan, if `d` answers the calls. -/
def follow (d : ι → StateT NameSupply Run β) : Plan ι β α → StateT NameSupply Run α
  | done a => pure a
  | fail e => throw e
  | draw k => do (k (← modifyGet NameSupply.draw)).follow d
  | call i k => do (k (← d i)).follow d

section Follow

variable (d : ι → StateT NameSupply Run β)

@[simp] theorem follow_pure (a : α) : (pure a : Plan ι β α).follow d = pure a := rfl

@[simp] theorem follow_fail (e : Error) : (fail e : Plan ι β α).follow d = throw e := rfl

@[simp] theorem follow_fresh : (fresh : Plan ι β String).follow d = modifyGet NameSupply.draw := bind_pure _

@[simp] theorem follow_ask (i : ι) : (ask i : Plan ι β β).follow d = d i := bind_pure (d i)

@[simp] theorem follow_bind (p : Plan ι β α) (k : α → Plan ι β γ) :
    (p >>= k).follow d = p.follow d >>= fun a => (k a).follow d := by
  induction p with
  | done a => exact (pure_bind a fun a => (k a).follow d).symm
  | fail e => rfl
  | draw j ih => exact (bind_congr ih).trans (bind_assoc _ _ _).symm
  | call i j ih => exact (bind_congr ih).trans (bind_assoc (d i) _ _).symm

end Follow

/-- A plan comes to the same if all its calls are answered in the same way. -/
theorem follow_eq_ofFresh {d : ι → StateT NameSupply Run β} {f : ι → Fresh β} {w : ι → Nat} {bound : Nat}
    (hd : ∀ i, w i ≤ bound → d i = Run.ofFresh (f i)) {p : Plan ι β α} (hp : p.Within w bound) :
    p.follow d = Run.ofFresh (p.eval f) := by
  induction p generalizing bound with
  | done a => rfl
  | fail e => rfl
  | draw k ih =>
    rw [follow, eval, Run.ofFresh_bind, Run.ofFresh_name]
    exact bind_congr fun n => ih n hd (hp n)
  | call i k ih =>
    rw [follow, eval, Run.ofFresh_bind, hd i hp.1]
    refine bind_congr fun b => ih b (fun j hj => hd j ?_) (hp.2 b)
    exact Nat.le_trans hj (Nat.sub_le _ _)

end Plan

/-- There is only one way to go by rules whose calls weigh less than their inputs. -/
theorem Obeys.eq_ofFresh {ι β : Type} {d : ι → StateT NameSupply Run β} {f : ι → Fresh β} {rules : ι → Plan ι β β}
    {w : ι → Nat} (h : Obeys f rules w) (hd : ∀ i, d i = (rules i).follow d) (i : ι) : d i = Run.ofFresh (f i) := by
  induction hk : w i using Nat.strong_induction_on generalizing i with
  | _ k ih =>
    subst hk
    obtain ⟨bound, hbound, hwithin⟩ := h.within i
    rw [hd i, h.eval_eq i]
    exact Plan.follow_eq_ofFresh (fun j hj => ih (w j) (Nat.lt_of_le_of_lt hj hbound) j rfl) hwithin

namespace Tables

open Term (stack stackAll)

variable {h tail t : Term} {o : Const} {name : String} {rs rs' : List (Rule (Handler NameSupply) Term)}

/-! ### Spines -/

/-- A rule for the spines of a constant has to match the rest of such a spine. -/
@[simp] theorem evaluate_spineRule (args : List Pattern) (p : Pattern) (f : Bindings → Handler NameSupply Term) :
    evaluate name (spineRule o args p f :: rs) (stack (.const o) tail) =
      ((Pattern.stack args p).bind tail []).elim (evaluate name rs (stack (.const o) tail)) fun b =>
        (f b).exec answer := by
  simp [spineRule]

@[simp] theorem evaluate_comparisonRule (ho : isComparison (.const o) = true) (args : List Pattern) (p : Pattern)
    (f : Binary → Bindings → Handler NameSupply Term) :
    evaluate name (comparisonRule args p f :: rs) (stack (.const o) tail) =
      ((Pattern.stack args p).bind tail [("q", .const o)]).elim (evaluate name rs (stack (.const o) tail)) fun b =>
        (do f (comparison (← read b "q")) b : Handler NameSupply Term).exec answer := by
  simp [comparisonRule, ho]

@[simp] theorem exec_fresh : fresh.exec answer = Term.var <$> modifyGet NameSupply.draw := by
  simp [fresh]

/-! ### Skipping rules -/

/-- No pattern of the rules matches the term. -/
def Skips (rs : List (Rule (Handler NameSupply) Term)) (t : Term) : Prop := ∀ r ∈ rs, r.pattern.bind t [] = none

theorem Skips.append (h : Skips rs t) (h' : Skips rs' t) : Skips (rs ++ rs') t := fun r hr =>
  (List.mem_append.1 hr).elim (h r) (h' r)

theorem Skips.evaluate_append (h : Skips rs t) : evaluate name (rs ++ rs') t = evaluate name rs' t := by
  induction rs with
  | nil => rfl
  | cons r rs ih =>
    obtain ⟨hr, hrs⟩ := List.forall_mem_cons.1 h
    rw [List.cons_append, evaluate_cons, hr, Option.elim_none, ih hrs]

theorem Skips.evaluate_left (h : Skips rs' t) : evaluate name (rs ++ rs') t = evaluate name rs t := by
  induction rs with
  | nil =>
    have hnil : evaluate name (rs' ++ []) t = evaluate name [] t := h.evaluate_append
    rwa [List.append_nil] at hnil
  | cons r rs ih => rw [List.cons_append, evaluate_cons, evaluate_cons, ih]

theorem skips_plainRules (hcomp : ∀ x y, h ≠ .comp x y) (hhole : h ≠ .const .hole) (htop : h ≠ .const .top)
    (hbot : h ≠ .const .bot) : Skips plainRules (stack h tail) := by
  simp [Skips, plainRules, spineRule, commit, bind_node_binary_of_ne hcomp, hhole, htop, hbot]

theorem skips_combinatorRules (ho : h ≠ .const o) : Skips (combinatorRules o) (stack h tail) := by
  cases o <;> simp [Skips, combinatorRules, spineRule, commit, ho]

theorem skips_flatMap_combinatorRules {os : List Const} (hos : ∀ o ∈ os, h ≠ .const o) :
    Skips (os.flatMap combinatorRules) (stack h tail) := by
  intro r hr
  obtain ⟨o, ho, hr⟩ := List.mem_flatMap.1 hr
  exact skips_combinatorRules (hos o ho) r hr

theorem evaluate_flatMap_combinatorRules {os : List Const} (hos : os.Nodup) (ho : o ∈ os) :
    evaluate name (os.flatMap combinatorRules) (stack (.const o) tail) =
      evaluate name (combinatorRules o) (stack (.const o) tail) := by
  induction os with
  | nil => cases ho
  | cons o' os ih =>
    obtain ⟨hnot, hos⟩ := List.nodup_cons.1 hos
    rw [List.flatMap_cons]
    rcases List.mem_cons.1 ho with rfl | hmem
    · refine Skips.evaluate_left (skips_flatMap_combinatorRules ?_)
      rintro _ hmem ⟨⟩
      exact hnot hmem
    · have hne : Term.const o ≠ .const o' := by
        rintro ⟨⟩
        exact hnot hmem
      rw [(skips_combinatorRules hne).evaluate_append, ih hos hmem]

theorem skips_comparisonRules (hh : isComparison h = false) : Skips comparisonRules (stack h tail) := by
  simp [Skips, comparisonRules, comparisonRule, commit, hh]

theorem skips_otherRules (hv : h.isVar = false) (hd : isDerived h = false) (hn : h.isNode = false) :
    Skips otherRules (stack h tail) := by
  simp [Skips, otherRules, commit, hv, hd, hn]

/-- Whether there are rules for a head before those for comparisons. -/
def isRuled : Term → Bool
  | .comp _ _ => true
  | .const o => o ∈ [.hole, .top, .bot] ++ ruled
  | _ => false

/-- A combinator with rules of its own is left to them. -/
theorem evaluate_of_mem_ruled (ho : o ∈ ruled) : evaluate name decompileStackRules (stack (.const o) tail) =
    evaluate name (combinatorRules o) (stack (.const o) tail) := by
  have hother : ∀ o ∈ ruled, (o ≠ .hole ∧ o ≠ .top ∧ o ≠ .bot) ∧ isComparison (.const o) = false ∧
      isDerived (.const o) = false := by decide
  obtain ⟨⟨hhole, htop, hbot⟩, hcomparison, hderived⟩ := hother o ho
  have hplain : Skips plainRules (stack (.const o) tail) := skips_plainRules nofun (by simpa) (by simpa) (by simpa)
  have hrest : Skips (comparisonRules ++ otherRules) (stack (.const o) tail) :=
    (skips_comparisonRules hcomparison).append (skips_otherRules rfl hderived rfl)
  rw [decompileStackRules, hplain.evaluate_append, hrest.evaluate_left]
  exact evaluate_flatMap_combinatorRules (by decide) ho

/-- What has no rules before those for comparisons is left to them and to the last ones. -/
theorem evaluate_of_isRuled_eq_false (hh : isRuled h = false) : evaluate name decompileStackRules (stack h tail) =
    evaluate name (comparisonRules ++ otherRules) (stack h tail) := by
  have hplain : Skips plainRules (stack h tail) := by
    apply skips_plainRules
    · rintro x y rfl
      cases hh
    all_goals
      rintro rfl
      cases hh
  have hruled : ∀ o ∈ ruled, h ≠ .const o := by
    rintro o ho rfl
    simp [isRuled, ho] at hh
  rw [decompileStackRules, hplain.evaluate_append, (skips_flatMap_combinatorRules hruled).evaluate_append]

/-! ### The rows -/

theorem exec_decompileStack_eq (s : Term) :
    (decompileStack s).exec answer = evaluate "decompile_stack" decompileStackRules s :=
  exec_apply .decompileStack s

theorem exec_decompileTail_eq (s : Term) :
    (decompileTail s).exec answer = evaluate "decompile_tail" decompileTailRules s :=
  exec_apply .decompileTail s

/-- Decompiles by the tables what a task says. -/
noncomputable def decompileByTables : Term.Task → StateT NameSupply Run Term
  | .spine h as => (decompileStack (h.toStackOnto as (.const .nil))).exec answer
  | .onto t as => (withTail t (stackAll as (.const .nil))).exec answer

@[simp] theorem exec_decompileOnto (h : Term) (as bs : List Term) :
    (decompileOnto h as (stackAll bs (.const .nil))).exec answer = decompileByTables (.spine h (as ++ bs)) := by
  simp [decompileOnto, decompileByTables, Term.toStackOnto_stackAll]

@[simp] theorem exec_decompileOnto_nil (h : Term) (as : List Term) :
    (decompileOnto h as (.const .nil)).exec answer = decompileByTables (.spine h as) := by
  simp [decompileOnto, decompileByTables]

@[simp] theorem exec_decompileTerm (t : Term) : (decompileTerm t).exec answer = decompileByTables (.spine t []) := by
  simp [decompileTerm]

@[simp] theorem exec_withTail (t : Term) (as : List Term) :
    (withTail t (stackAll as (.const .nil))).exec answer = decompileByTables (.onto t as) := rfl

@[simp] theorem exec_withTail_nil (t : Term) :
    (withTail t (.const .nil)).exec answer = decompileByTables (.onto t []) := rfl

@[simp] theorem decompileByTables_app (x y : Term) (as : List Term) :
    decompileByTables (.spine (.app x y) as) = decompileByTables (.spine x (y :: as)) := rfl

theorem decompileByTables_of_ne_app (hh : ∀ x y, h ≠ .app x y) (as : List Term) :
    decompileByTables (.spine h as) =
      evaluate "decompile_stack" decompileStackRules (stack h (stackAll as (.const .nil))) := by
  rw [decompileByTables, Term.toStackOnto_of_head hh, exec_decompileStack_eq, Term.stackAll_cons]

theorem decompileByTables_of_mem_ruled (ho : o ∈ ruled) (as : List Term) : decompileByTables (.spine (.const o) as) =
    evaluate "decompile_stack" (combinatorRules o) (stack (.const o) (stackAll as (.const .nil))) := by
  rw [decompileByTables_of_ne_app (by simp), evaluate_of_mem_ruled ho]

/-! ### Arguments -/

theorem exec_decompileTail_nil : (decompileTail (.const .nil)).exec answer = pure (.const .nil) := by
  rw [exec_decompileTail_eq]
  simp [decompileTailRules]

theorem exec_decompileTail_cons (x tail : Term) : (decompileTail (stack x tail)).exec answer = do
    let tx ← decompileByTables (.spine x [])
    let s ← (decompileTail tail).exec answer
    return stack tx s := by
  rw [exec_decompileTail_eq]
  simp [decompileTailRules]

theorem decompileByTables_onto_eq (t : Term) (as : List Term) : decompileByTables (.onto t as) =
    (decompileTail (stackAll as (.const .nil))).exec answer >>= fun s =>
      liftM (Run.ofOutcome (stack t s).fromStack) := by
  rw [decompileByTables, withTail, Handling.exec_bind]
  exact bind_congr fun s => by simp

@[simp] theorem decompileByTables_onto_nil (t : Term) : decompileByTables (.onto t []) = pure t := by
  rw [decompileByTables_onto_eq, Term.stackAll_nil, exec_decompileTail_nil]
  simp [Term.fromStack, Term.applyStack]

/-- The arguments are decompiled first and put onto the term then. It comes to the same to put each onto it at once. -/
theorem decompileByTables_onto (t : Term) (as : List Term) :
    decompileByTables (.onto t as) = (Term.ontoPlan t as).follow decompileByTables := by
  cases as with
  | nil => exact decompileByTables_onto_nil t
  | cons a as =>
    rw [decompileByTables_onto_eq, Term.stackAll_cons, exec_decompileTail_cons, Term.ontoPlan]
    simp only [Plan.follow_bind, Plan.follow_ask, decompileByTables_onto_eq, bind_assoc, pure_bind]
    rfl

section Rows

variable (as : List Term)

/-- `I`, `K`, `B` and `C` copy nothing, and ask for arguments only. -/
theorem decompileByTables_affine (ho : o ∈ [.i, .k, .b, .c]) : decompileByTables (.spine (.const o) as) =
    (Term.spinePlan (.const o) as).follow decompileByTables := by
  have hruled : ∀ o ∈ [Const.i, .k, .b, .c], o ∈ ruled := by decide
  rw [decompileByTables_of_mem_ruled (hruled o ho)]
  simp only [List.mem_cons, List.not_mem_nil, or_false] at ho
  -- The arguments are told apart as far as the rules of the combinator ask for them.
  rcases ho with rfl | rfl | rfl | rfl
  · rcases as with _ | ⟨x, as⟩ <;> simp [combinatorRules, Term.spinePlan]
  · rcases as with _ | ⟨x, _ | ⟨y, as⟩⟩ <;> simp [combinatorRules, Term.spinePlan]
  · rcases as with _ | ⟨x, _ | ⟨y, _ | ⟨z, as⟩⟩⟩ <;> simp [combinatorRules, Term.spinePlan]
  · rcases as with _ | ⟨x, _ | ⟨y, _ | ⟨z, as⟩⟩⟩ <;> simp [combinatorRules, Term.spinePlan]

theorem decompileByTables_w : decompileByTables (.spine (.const .w) as) =
    (Term.spinePlan (.const .w) as).follow decompileByTables := by
  rw [decompileByTables_of_mem_ruled (by decide)]
  rcases as with _ | ⟨x, _ | ⟨y, as⟩⟩
  · simp [combinatorRules, Term.spinePlan]
  · simp [combinatorRules, Term.spinePlan]
  · cases hy : y.isVar with
    | true =>
      obtain ⟨n, rfl⟩ := Term.isVar_eq_true_iff.1 hy
      simp [combinatorRules, hy, Term.spinePlan]
    | false => simp [combinatorRules, hy, Term.spinePlan, Term.isVar_eq_false_iff.1 hy]

theorem decompileByTables_s : decompileByTables (.spine (.const .s) as) =
    (Term.spinePlan (.const .s) as).follow decompileByTables := by
  rw [decompileByTables_of_mem_ruled (by decide)]
  rcases as with _ | ⟨x, _ | ⟨y, _ | ⟨z, as⟩⟩⟩
  · simp [combinatorRules, Term.spinePlan]
  · simp [combinatorRules, Term.spinePlan]
  · simp [combinatorRules, Term.spinePlan]
  · cases hz : z.isVar with
    | true =>
      obtain ⟨n, rfl⟩ := Term.isVar_eq_true_iff.1 hz
      simp [combinatorRules, hz, Term.spinePlan]
    | false => simp [combinatorRules, hz, Term.spinePlan, Term.isVar_eq_false_iff.1 hz]

theorem decompileByTables_y : decompileByTables (.spine (.const .y) as) =
    (Term.spinePlan (.const .y) as).follow decompileByTables := by
  rw [decompileByTables_of_mem_ruled (by decide)]
  rcases as with _ | ⟨x, as⟩
  all_goals simp [combinatorRules, ensure, operands, Term.layer, Term.spinePlan, Term.fixpoint]

/-- Operators take what operands there are, and bind the others. -/
theorem decompileByTables_operator (b : Binary) (ho : o ∈ ruled)
    (hrules : combinatorRules o = [spineRule o [] (any "tail") (operator b)]) :
    decompileByTables (.spine (.const o) as) = (Term.operatorPlan b as).follow decompileByTables := by
  rw [decompileByTables_of_mem_ruled ho, hrules]
  rcases as with _ | ⟨x, _ | ⟨y, as⟩⟩
  all_goals simp [operator, ensure, operands, Term.layer, Term.operatorPlan]

theorem decompileByTables_comparison (b : Binary) (ho : isComparison (.const o) = true)
    (hb : comparison (.const o) = b) :
    decompileByTables (.spine (.const o) as) = (Term.comparisonPlan b as).follow decompileByTables := by
  have hruled : isRuled (.const o) = false := by
    cases o <;> first | rfl | cases ho
  have quote_or (t : Term) : (∃ z, t = .quote z) ∨ (∀ z, t ≠ .quote z) ∧ t.head? ≠ some (.unary .quote) := by
    cases t <;> simp [or_iff_not_imp_left]
  rw [decompileByTables_of_ne_app (by simp), evaluate_of_isRuled_eq_false hruled]
  rcases as with _ | ⟨x, _ | ⟨y, as⟩⟩
  · simp [comparisonRules, ho, hb, Term.comparisonPlan]
  · obtain ⟨z, rfl⟩ | ⟨hx, hhead⟩ := quote_or x
    · simp [comparisonRules, ho, hb, Term.comparisonPlan]
    · simp [comparisonRules, ho, hb, Term.comparisonPlan, bind_node_of_head?_ne hhead]
  · obtain ⟨z, rfl⟩ | ⟨hx, hhead⟩ := quote_or x
    · obtain ⟨w, rfl⟩ | ⟨hy, hheady⟩ := quote_or y
      · simp [comparisonRules, ho, hb, Term.comparisonPlan]
      · simp [comparisonRules, ho, hb, Term.comparisonPlan, hy, bind_node_of_head?_ne hheady]
    · simp [comparisonRules, ho, hb, Term.comparisonPlan, hx, bind_node_of_head?_ne hhead]

/-- Compositions, holes and lattice constants have the first rules. -/
theorem decompileByTables_plain (hh : (∃ x y, h = .comp x y) ∨ h = .const .hole ∨ h = .const .top ∨ h = .const .bot) :
    decompileByTables (.spine h as) = (Term.spinePlan h as).follow decompileByTables := by
  rcases hh with ⟨x, y, rfl⟩ | rfl | rfl | rfl
  all_goals
    rw [decompileByTables_of_ne_app (by simp)]
    simp [decompileStackRules, plainRules, spineRule, Term.spinePlan]

theorem decompileByTables_of_other (happ : ∀ x y, h ≠ .app x y) (hruled : isRuled h = false)
    (hcomparison : isComparison h = false) : decompileByTables (.spine h as) =
      evaluate "decompile_stack" otherRules (stack h (stackAll as (.const .nil))) := by
  rw [decompileByTables_of_ne_app happ, evaluate_of_isRuled_eq_false hruled,
    (skips_comparisonRules hcomparison).evaluate_append]

/-- A derived combinator is replaced by its definition, if it has one. -/
theorem decompileByTables_derived (ho : isDerived (.const o) = true) :
    decompileByTables (.spine (.const o) as) = (Term.spinePlan (.const o) as).follow decompileByTables := by
  cases o <;> cases ho
  all_goals
    rw [decompileByTables_of_other as (by simp) rfl (by decide)]
    simp [otherRules, isDerived, Term.isVar, Term.varName?, expandDerived, definitionOf, Head.ofSpelling?_spelling,
      Const.definition, Term.spinePlan]

/-- What is no combinator keeps its head. -/
theorem decompileByTables_node (happ : ∀ x y, h ≠ .app x y) (hcomp : ∀ x y, h ≠ .comp x y) (hh : h.isNode = true) :
    decompileByTables (.spine h as) = (Term.spinePlan h as).follow decompileByTables := by
  have hruled : isRuled h = false := by
    unfold isRuled
    split
    · next x y => exact absurd rfl (hcomp x y)
    · cases hh
    · rfl
  have hcomparison : isComparison h = false := by
    cases h <;> first | rfl | cases hh
  rw [decompileByTables_of_other as happ hruled hcomparison]
  cases h with
  | name n | const o => cases hh
  | binary b x y =>
    cases b <;> simp_all [otherRules, Term.isVar, Term.varName?, isDerived, Term.spinePlan]
  | var n | unary u x | lambda p e | letrec p d e =>
    simp [otherRules, Term.isVar, Term.varName?, isDerived, Term.isNode, Term.spinePlan]

/-- A spine without a head that could be decompiled matches no rule. -/
theorem decompileByTables_error (hh : h = .const .nil ∨ ∃ n, h = .name n) :
    decompileByTables (.spine h as) = (Term.spinePlan h as).follow decompileByTables := by
  rcases hh with rfl | ⟨n, rfl⟩
  all_goals
    rw [decompileByTables_of_other as (by simp) rfl (by simp [isComparison])]
    simp [otherRules, Term.isVar, Term.varName?, isDerived, Term.isNode, Term.spinePlan]

end Rows

/-- **Decompilation by the tables** goes by the rows of `Term.decompilePlan`. -/
theorem decompileByTables_eq_follow (i : Term.Task) :
    decompileByTables i = (Term.decompilePlan i).follow decompileByTables := by
  rcases i with ⟨h, as⟩ | ⟨t, as⟩
  · rw [Term.decompilePlan]
    cases h with
    | const o =>
      cases o with
      | i | k | b | c => exact decompileByTables_affine as (by decide)
      | w => exact decompileByTables_w as
      | s => exact decompileByTables_s as
      | y => exact decompileByTables_y as
      | j => exact decompileByTables_operator as .join (by decide) rfl
      | r => exact decompileByTables_operator as .rand (by decide) rfl
      | qless => exact decompileByTables_comparison as .less (by decide) (by decide)
      | qnless => exact decompileByTables_comparison as .nless (by decide) (by decide)
      | qequal => exact decompileByTables_comparison as .equal (by decide) (by decide)
      | hole | top | bot => exact decompileByTables_plain as (by simp)
      | nil => exact decompileByTables_error as (by simp)
      | ci | cb | u | v | p | a => exact decompileByTables_derived as (by decide)
    | binary b x y =>
      by_cases happ : b = .app
      · subst happ
        simp [Term.spinePlan]
      · by_cases hcomp : b = .comp
        · subst hcomp
          exact decompileByTables_plain as (by simp)
        · exact decompileByTables_node as (by simp [happ]) (by simp [hcomp]) rfl
    | name n => exact decompileByTables_error as (by simp)
    | var n | unary u x | lambda p e | letrec p d e => exact decompileByTables_node as (by simp) (by simp) rfl
  · exact decompileByTables_onto t as

@[simp] theorem exec_decompile (code : Term) : Attempt.exec answer (decompile code) = Run.ofOutcome code.decompile := by
  have h := Term.obeys_decompileTask.eq_ofFresh decompileByTables_eq_follow (.spine code [])
  simp [decompile, h, Term.decompile, Term.decompileRaw, Term.decompileWith, Term.decompileTask]

end Tables

end Combinatory
