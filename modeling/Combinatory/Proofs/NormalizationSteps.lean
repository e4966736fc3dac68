import Combinatory.Proofs.DecompilationRules
import Combinatory.Proofs.NormalForm
import Combinatory.Proofs.RuleMachine

/-!
# The steps of normalization

Normalization comes to an end on every term, does not fail, and makes no copies: the normal form has no more nodes of
any head than the term, and it is smaller than the term unless it is the term.

## The model

`Term.normalizePlan` is normalization as a table of rules, with calls in place of the recursion, for the machine that
applies one rule after the other.

`Term.Shrinks t u` says that `u` has no more nodes of any head than `t` and fewer nodes in all. A step at the head of a
spine shrinks the term that the spine stands for, by the law that substitution obeys (`count_heads_substitute`): each
free occurrence of the variable is traded for the nodes of the argument.

## What is proved

* `obeys_normalizeTask` — normalization goes by the table, and the tasks that a row calls for weigh together less than
  its own task.
* `Normalizes.shrinks` — what the rules of normalization give is the term or shrinks it.
* `normalize_halts_and_shrinks` — the two together.
-/

namespace Combinatory.Term

open Plan

/-! ### The table -/

/-- What is left to do for a spine that no step applies to: the first argument of an abstraction may turn out to be a
variable. -/
def stuckPlan : Term → List Term → Plan Task Term Term
  | .lambda (.var n) e, y :: bs => do
    match ← ask (.spine y []) with
    | .var m => ask (.spine (substitute n (.var m) e) bs)
    | y' => ask (.onto (app (.lambda (.var n) e) y') bs)
  | h, as => ask (.onto h as)

/-- The table of normalization. -/
def normalizePlan : Task → Plan Task Term Term
  | .spine (.app x y) as => ask (.spine x (y :: as))
  | .spine h as =>
    match headStep? h as with
    | some (h', as') => ask (.spine h' as')
    | none => stuckPlan h as
  | .onto t as => ontoPlan t as

/-- Normalizes what a task says. -/
def normalizeTask : Task → Fresh Term
  | .spine h as => pure (normalizeSpine h as)
  | .onto t as => pure (t.appAll (as.map normalize))

theorem eval_stuckPlan {h : Term} {as : List Term} (hs : Stuck h as) :
    (stuckPlan h as).eval normalizeTask = pure (normalizeSpine h as) := by
  unfold stuckPlan
  split
  · next n e y bs =>
    simp only [eval_bind, eval_ask, normalizeTask, pure_bind]
    split
    · next m hm => rw [normalizeSpine_of_copy hs hm, eval_ask, normalizeTask]
    · next hy =>
      have hv : ∀ n' e' y' bs', lambda (.var n) e = .lambda (.var n') e' → y :: bs = y' :: bs' →
          y'.normalize.isVar = false := by
        rintro _ _ _ _ - h
        cases h
        exact isVar_eq_false_iff.2 hy
      rw [normalizeSpine_of_stuck hs hv, eval_ask, normalizeTask]
      rfl
  · next hn =>
    have hv : ∀ n e y bs, h = .lambda (.var n) e → as = y :: bs → y.normalize.isVar = false :=
      fun n e y bs hh has => (hn n e y bs hh has).elim
    rw [normalizeSpine_of_stuck hs hv, eval_ask, normalizeTask]

theorem eval_normalizePlan (i : Task) : (normalizePlan i).eval normalizeTask = normalizeTask i := by
  unfold normalizePlan
  split
  · next x y as => rw [eval_ask, normalizeTask, normalizeTask, normalizeSpine_app]
  · next h as happ =>
    split
    · next h' as' hs => rw [eval_ask, normalizeTask, normalizeTask, normalizeSpine_of_step hs]
    · next hs => exact eval_stuckPlan (stuck_iff.2 ⟨happ, hs⟩)
  · next t as =>
    unfold ontoPlan
    split <;> simp [normalizeTask, normalize]

/-! ### What the rows call for -/

/-- The weight of a task. -/
def normalizeWeight : Task → Nat
  | .spine h as => 2 * spineWeight h as + as.length + 2
  | .onto _ as => 2 * argumentsWeight as + as.length + 1

theorem headStep?_length {h h' : Term} {as as' : List Term} (hs : headStep? h as = some (h', as')) :
    as'.length ≤ as.length := by
  rcases headStep?_eq_some_iff.1 hs with hl | ⟨x, -, hr⟩ | ⟨-, hb⟩
  · unfold latticeStep? at hl
    split at hl <;> cases hl <;> simp
  · cases hr
    exact Nat.le_refl _
  · obtain ⟨n, e, a, bs, rfl, rfl, -, hr⟩ := betaStep?_eq_some_iff.1 hb
    cases hr
    exact Nat.le_succ _

theorem within_stuckPlan (h : Term) (as : List Term) :
    (stuckPlan h as).Within normalizeWeight (normalizeWeight (.spine h as) - 1) := by
  unfold stuckPlan
  split
  · next n e y bs =>
    simp only [within_ask_bind, normalizeWeight, spineWeight, argumentsWeight, size, List.length_cons, List.length_nil]
    refine ⟨by omega, fun y' => ?_⟩
    split
    · simp only [within_ask, normalizeWeight, spineWeight, size_substitute_var]
      omega
    · simp only [within_ask, normalizeWeight]
      omega
  · simp only [within_ask, normalizeWeight, spineWeight]
    omega

theorem within_normalizePlan (i : Task) : (normalizePlan i).Within normalizeWeight (normalizeWeight i - 1) := by
  unfold normalizePlan
  split
  · simp only [within_ask, normalizeWeight, spineWeight, argumentsWeight, size, List.length_cons]
    omega
  · next h as _ =>
    split
    · next h' as' hs =>
      have hw := headStep?_weight hs
      have hl := headStep?_length hs
      simp only [within_ask, normalizeWeight]
      omega
    · exact within_stuckPlan h as
  · unfold ontoPlan
    split <;> simp [normalizeWeight]
    omega

/-- **Normalization goes by the table**, and no row calls for more than its task weighs. -/
theorem obeys_normalizeTask : Obeys normalizeTask normalizePlan normalizeWeight where
  eval_eq i := (eval_normalizePlan i).symm
  within i := by
    refine ⟨normalizeWeight i - 1, Nat.sub_one_lt ?_, within_normalizePlan i⟩
    cases i <;> simp [normalizeWeight]

/-! ### Counting nodes -/

@[simp] theorem heads_rename (old new : String) (t : Term) : (t.rename old new).heads = t.heads := by
  fun_induction rename old new t <;> simp_all [heads]

@[simp] theorem heads_renameAll (pairs : List (String × String)) (t : Term) : (t.renameAll pairs).heads = t.heads := by
  induction pairs generalizing t with
  | nil => rfl
  | cons r rs ih => exact (ih (t.rename r.1 r.2)).trans (heads_rename r.1 r.2 t)

/-- Each free occurrence of `n` is traded for the nodes of `d`. -/
theorem count_heads_substitute (a : Head) (n : String) (d t : Term) :
    (substitute n d t).heads.count a + t.count n * [Head.var].count a =
      t.heads.count a + t.count n * d.heads.count a := by
  fun_induction substitute n d t with
  | case1 | case2 => simp [count]
  | case3 => simp [count, heads]; omega
  | case4 m h => simp [count, heads, h]
  | case5 u x ih => simp only [count, heads, List.count_cons] at ih ⊢; omega
  | case6 b x y ihx ihy =>
    simp only [count, heads, List.count_cons, List.count_append, Nat.add_mul] at ihx ihy ⊢
    omega
  | case7 p e h => simp [h]
  | case8 p e h r ihp ihe =>
    have hp : n ∉ p.payloads := fun hp => h (by simp [count, hp])
    have hr : ∀ q ∈ r, n ≠ q.1 ∧ n ≠ q.2 := refreshing_ne hp (mem_payloads_of_count_ne_zero h)
    rw [count_renameAll hr, heads_renameAll] at ihp ihe
    simp only [count, heads, hp, if_false, List.count_cons, List.count_append, Nat.add_mul] at ihp ihe ⊢
    omega
  | case9 p f e h => simp [h]
  | case10 p f e h r ihp ihf ihe =>
    have hp : n ∉ p.payloads := fun hp => h (by simp [count, hp])
    have hr : ∀ q ∈ r, n ≠ q.1 ∧ n ≠ q.2 := refreshing_ne hp (mem_payloads_of_count_ne_zero h)
    rw [count_renameAll hr, heads_renameAll] at ihp ihf ihe
    simp only [count, heads, hp, if_false, List.count_cons, List.count_append, Nat.add_mul] at ihp ihf ihe ⊢
    omega

theorem length_heads (t : Term) : t.heads.length = t.size := by
  induction t with
  | name n | const o | var n => rfl
  | unary u x ih => simp only [heads, size, List.length_cons, ih]
  | binary b x y ihx ihy => simp only [heads, size, List.length_cons, List.length_append, ihx, ihy]
  | lambda p e ihp ihe => simp only [heads, size, List.length_cons, List.length_append, ihp, ihe]
  | letrec p d e ihp ihd ihe =>
    simp only [heads, size, List.length_cons, List.length_append, ihp, ihd, ihe, Nat.add_assoc]

/-- What substitution leaves, by its law: `c` occurrences that count `v` each are traded for arguments that count `y`.
There is one occurrence at most, or the trade is even. -/
theorem le_of_used_once {c x v e y : Nat} (h : y = v ∨ c ≤ 1) (law : x + c * v = e + c * y) : x ≤ e + y := by
  rcases h with rfl | hc
  · omega
  · have : c = 0 ∨ c = 1 := by omega
    rcases this with rfl | rfl <;> omega

/-- `u` has no more nodes of any head than `t`, and is smaller unless it is `t`. -/
structure Shrinks (t u : Term) : Prop where
  /-- No head is copied. -/
  count_le : ∀ a, u.heads.count a ≤ t.heads.count a
  /-- A node is gone if anything has changed. -/
  eq_or_size_lt : u = t ∨ u.size < t.size

namespace Shrinks

variable {t t' u u' v : Term}

theorem refl (t : Term) : Shrinks t t := ⟨fun _ => Nat.le_refl _, .inl rfl⟩

theorem size_le (h : Shrinks t u) : u.size ≤ t.size := by
  rcases h.eq_or_size_lt with rfl | hlt
  · exact Nat.le_refl _
  · exact Nat.le_of_lt hlt

theorem trans (h : Shrinks t u) (h' : Shrinks u v) : Shrinks t v where
  count_le a := Nat.le_trans (h'.count_le a) (h.count_le a)
  eq_or_size_lt := by
    rcases h'.eq_or_size_lt with rfl | hlt
    · exact h.eq_or_size_lt
    · exact .inr (Nat.lt_of_lt_of_le hlt h.size_le)

theorem app (h : Shrinks t u) (h' : Shrinks t' u') : Shrinks (.app t t') (.app u u') where
  count_le a := by
    have := h.count_le a
    have := h'.count_le a
    simp only [heads, List.count_cons, List.count_append]
    omega
  eq_or_size_lt := by
    have := h.size_le
    have := h'.size_le
    simp only [size]
    rcases h.eq_or_size_lt with rfl | hlt
    · rcases h'.eq_or_size_lt with rfl | hlt'
      · exact .inl rfl
      · omega
    · omega

theorem appAll (h : Shrinks t u) (as : List Term) : Shrinks (t.appAll as) (u.appAll as) :=
  rel_appAll .app .refl h as

/-- A part of a term has all the heads of the term but some, in the same order. -/
theorem of_sublist {a : Head} (h : (a :: u.heads).Sublist t.heads) : Shrinks t u where
  count_le b := ((List.sublist_cons_self a u.heads).trans h).count_le b
  eq_or_size_lt := by
    have hlength := h.length_le
    rw [List.length_cons, length_heads, length_heads] at hlength
    exact .inr hlength

theorem binary_left (b : Binary) (x y : Term) : Shrinks (.binary b x y) x :=
  .of_sublist ((List.sublist_append_left x.heads y.heads).cons_cons (.binary b))

theorem binary_right (b : Binary) (x y : Term) : Shrinks (.binary b x y) y :=
  .of_sublist ((List.sublist_append_right x.heads y.heads).cons_cons (.binary b))

theorem body (p e : Term) : Shrinks (.lambda p e) e :=
  .of_sublist ((List.sublist_append_right p.heads e.heads).cons_cons .lambda)

/-- Arguments are dropped. -/
theorem head (h : Term) (as : List Term) : Shrinks (h.appAll as) h := by
  induction as generalizing h with
  | nil => exact .refl h
  | cons a as ih => exact (ih (.app h a)).trans (binary_left _ h a)

/-- A variable is put in the place of a variable, and anything else is put in one place. -/
theorem beta {n : String} {e a : Term} (h : a.isVar = true ∨ e.count n ≤ 1) :
    Shrinks (.app (.lambda (.var n) e) a) (substitute n a e) where
  count_le b := by
    have hvar : a.heads.count b = [Head.var].count b ∨ e.count n ≤ 1 := by
      refine h.imp_left fun ha => ?_
      obtain ⟨m, rfl⟩ := isVar_eq_true_iff.1 ha
      rfl
    have hle := le_of_used_once hvar (count_heads_substitute b n a e)
    simp only [heads, List.count_cons, List.count_append]
    omega
  eq_or_size_lt := by
    have hvar : a.size = 1 ∨ e.count n ≤ 1 := by
      refine h.imp_left fun ha => ?_
      obtain ⟨m, rfl⟩ := isVar_eq_true_iff.1 ha
      rfl
    have hsize : (substitute n a e).size + e.count n * 1 = e.size + e.count n * a.size := by
      rw [Nat.mul_one, size_substitute]
    have hle := le_of_used_once hvar hsize
    simp only [size]
    omega

end Shrinks

theorem shrinks_latticeStep? {h h' : Term} {as as' : List Term} (hs : latticeStep? h as = some (h', as')) :
    Shrinks (h.appAll as) (h'.appAll as') := by
  unfold latticeStep? at hs
  split at hs <;> cases hs
  · exact .head _ _
  · exact .head _ _
  · exact (Shrinks.head _ as).trans (.binary_left _ _ _)
  · exact (Shrinks.head _ as).trans (.binary_right _ _ _)
  · exact (Shrinks.binary_right _ _ _).appAll as
  · exact (Shrinks.binary_left _ _ _).appAll as

theorem shrinks_headStep? {h h' : Term} {as as' : List Term} (hs : headStep? h as = some (h', as')) :
    Shrinks (h.appAll as) (h'.appAll as') := by
  rcases headStep?_eq_some_iff.1 hs with hl | ⟨x, he, hr⟩ | ⟨-, hb⟩
  · exact shrinks_latticeStep? hl
  · cases hr
    obtain ⟨n, rfl, -⟩ := etaStep?_eq_some_iff.1 he
    exact ((Shrinks.body _ _).trans (.binary_left _ _ _)).appAll as
  · obtain ⟨n, e, a, bs, rfl, rfl, hc, hr⟩ := betaStep?_eq_some_iff.1 hb
    cases hr
    exact (Shrinks.beta hc).appAll as'

/-- **Normalization makes no copies**: by induction on its rules. -/
theorem Normalizes.shrinks {h r : Term} {as : List Term} (hr : Normalizes h as r) : Shrinks (h.appAll as) r := by
  induction hr with
  | app _ ih => exact ih
  | step hs _ ih => exact (shrinks_headStep? hs).trans ih
  | @copy n m e y r bs _ _ _ ihy ih =>
    have harg : Shrinks (Term.app (.lambda (.var n) e) y) (.app (.lambda (.var n) e) (.var m)) :=
      (Shrinks.refl _).app ihy
    exact ((harg.trans (.beta (.inl rfl))).appAll bs).trans ih
  | stuck _ _ _ ih => exact rel_appAll_map .app (.refl _) ih

/-- **Normalization ends and makes no copies**: the machine that applies the rules halts on every term, whatever it is
made of, with the normal form and without an error or a drawn name. The normal form has no more nodes of any head than
the term, and is smaller unless it is the term. -/
theorem normalize_halts_and_shrinks (t : Term) :
    (∀ s, Machine.Halts normalizePlan (.spine t []) s (4 * t.size + 2) (.ok t.normalize, s)) ∧
      (∀ a, t.normalize.heads.count a ≤ t.heads.count a) ∧ (t.normalize = t ∨ t.normalize.size < t.size) := by
  refine ⟨?_, (normalizes_normalize t).shrinks.count_le, (normalizes_normalize t).shrinks.eq_or_size_lt⟩
  intro s
  have hhalts := obeys_normalizeTask.halts (.spine t []) s
  simp only [normalizeWeight, spineWeight_nil, List.length_nil] at hhalts
  rwa [← Nat.mul_assoc] at hhalts

end Combinatory.Term
