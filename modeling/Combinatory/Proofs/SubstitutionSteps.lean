import Combinatory.Proofs.RuleMachine
import Combinatory.Proofs.Substitution
import Mathlib.Tactic.Ring

/-!
# The steps of substitution

Substitution as a table of rules. Where a binder would capture, the names of its pattern are replaced first, one after
the other and each by a substitution of its own, and the substitution goes on in what these have made. So a row calls
for replacements in terms that are no parts of its term, and it ends all the same: on every term, whatever it is made of
and whatever is in the patterns of its binders.

## The model

`Term.substitutePlan` has the rows of `Term.substitute`, with calls in place of the recursion and of the renaming too.
A replacement weighs the square of the size of its term, times the number of names in the term that are free in what is
substituted (`Term.capturable`). These are the names that can be captured. A new name is not among them, so the renaming
of a binder calls for no further renaming, and it leaves no more of them than there were.

## What is proved

* `substitute_var_eq_rename` — to rename a variable is to substitute a variable for it, if that is new.
* `obeys_substitutePlan` — substitution goes by the table, and the replacements that a row calls for weigh together
  less than its own.
* `halts_substitute` — the machine that applies the rows halts on every term with what `Term.substitute` gives.
-/

namespace Combinatory.Term

open Plan

variable {n old new : String} {d p t u : Term} {pairs : List (String × String)} {ns : List String}

/-! ### The table -/

/-- To replace the free occurrences of the variable `name` in `body` by `value`. -/
structure Replacement where
  /-- The variable that is replaced. -/
  name : String
  /-- What it is replaced by. -/
  value : Term
  /-- The term in which it is replaced. -/
  body : Term

/-- How variables are renamed, one after the other. -/
def renamePlan : List (String × String) → Term → Plan Replacement Term Term
  | [], t => return t
  | (old, new) :: rs, t => do
    let t' ← ask ⟨old, .var new, t⟩
    renamePlan rs t'

/-- What is done below a binder whose names are changed by the pairs. -/
def belowPlan (n : String) (d : Term) (pairs : List (String × String)) (t : Term) : Plan Replacement Term Term := do
  let t' ← renamePlan pairs t
  ask ⟨n, d, t'⟩

/-- The table of substitution. -/
def substitutePlan : Replacement → Plan Replacement Term Term
  | ⟨_, _, .name m⟩ => return .name m
  | ⟨_, _, .const o⟩ => return .const o
  | ⟨n, d, .var m⟩ => return if m = n then d else .var m
  | ⟨n, d, .unary u x⟩ => do
    let x' ← ask ⟨n, d, x⟩
    return .unary u x'
  | ⟨n, d, .binary b x y⟩ => do
    let x' ← ask ⟨n, d, x⟩
    let y' ← ask ⟨n, d, y⟩
    return .binary b x' y'
  | ⟨n, d, .lambda p e⟩ =>
    if count n (.lambda p e) = 0 then return .lambda p e
    else do
      let r := refreshing p (payloads (.lambda p e)) d
      let p' ← belowPlan n d r p
      let e' ← belowPlan n d r e
      return .lambda p' e'
  | ⟨n, d, .letrec p f e⟩ =>
    if count n (.letrec p f e) = 0 then return .letrec p f e
    else do
      let r := refreshing p (payloads (.letrec p f e)) d
      let p' ← belowPlan n d r p
      let f' ← belowPlan n d r f
      let e' ← belowPlan n d r e
      return .letrec p' f' e'

/-- Makes a replacement. -/
def replace (i : Replacement) : Fresh Term := pure (substitute i.name i.value i.body)

/-- The term is what the replacement gives. -/
def IsReplaced (i : Replacement) (t : Term) : Prop := t = substitute i.name i.value i.body

/-! ### Names that can be captured -/

theorem payloads_subset_lambda (p e : Term) :
    p.payloads ⊆ (lambda p e).payloads ∧ e.payloads ⊆ (lambda p e).payloads := by
  simp [payloads]

theorem payloads_subset_letrec (p f e : Term) : p.payloads ⊆ (letrec p f e).payloads ∧
    f.payloads ⊆ (letrec p f e).payloads ∧ e.payloads ⊆ (letrec p f e).payloads := by
  simp [payloads]

/-- The names of the term that are free in `d`: its binders can capture no others. -/
def capturable (d t : Term) : List String := t.names.filter (· ∈ d.freeNames)

@[simp] theorem mem_capturable {m : String} : m ∈ capturable d t ↔ m ∈ t.payloads ∧ m ∈ d.freeOccurrences := by
  simp [capturable]

theorem length_capturable_le (h : capturable d t ⊆ capturable d u) :
    (capturable d t).length ≤ (capturable d u).length :=
  ((nodup_nameSet t.payloads).filter _).length_le_of_subset h

theorem capturable_subset (h : t.payloads ⊆ u.payloads) : capturable d t ⊆ capturable d u := by
  intro m hm
  rw [mem_capturable] at hm ⊢
  exact ⟨h hm.1, hm.2⟩

theorem capturable_var_eq_nil (h : new ∉ t.payloads) : capturable (.var new) t = [] := by
  rw [List.eq_nil_iff_forall_not_mem]
  intro m hm
  rw [mem_capturable, freeOccurrences, List.mem_singleton] at hm
  exact h (hm.2 ▸ hm.1)

theorem length_refreshing (p d : Term) (ns : List String) : (refreshing p ns d).length = (capturable d p).length := by
  rw [← List.length_map (f := Prod.fst), map_fst_refreshing, capturable]

theorem payloads_renameAll_subset {m : String} (h : m ∈ (t.renameAll pairs).payloads) :
    m ∈ t.payloads ∨ ∃ r ∈ pairs, m = r.2 := by
  induction pairs generalizing t with
  | nil => exact .inl h
  | cons r rs ih =>
    rcases ih h with hmem | ⟨q, hq, rfl⟩
    · rcases payloads_rename_subset hmem with hmem | rfl
      · exact .inl hmem
      · exact .inr ⟨r, List.mem_cons_self, rfl⟩
    · exact .inr ⟨q, List.mem_cons_of_mem r hq, rfl⟩

/-- The new names of a binder are not free in what is substituted. -/
theorem capturable_renameAll_subset (p d t : Term) (ns : List String) :
    capturable d (t.renameAll (refreshing p ns d)) ⊆ capturable d t := by
  intro m hm
  rw [mem_capturable] at hm ⊢
  refine ⟨?_, hm.2⟩
  rcases payloads_renameAll_subset hm.1 with hmem | ⟨r, hr, rfl⟩
  · exact hmem
  · exact absurd (mem_payloads_of_mem_freeOccurrences hm.2) (refreshing_new hr).2

/-! ### Renaming by substitution -/

/-- A name that is new to a term is put in the place of a variable without any renaming on the way. -/
theorem substitute_var_eq_rename (h : new ∉ t.payloads) : substitute old (.var new) t = t.rename old new := by
  have nothing {p : Term} (hp : new ∉ p.payloads) (ns : List String) : refreshing p ns (.var new) = [] := by
    rw [← List.length_eq_zero_iff, length_refreshing, capturable_var_eq_nil hp, List.length_nil]
  induction t with
  | name m | const o => rw [substitute, rename]
  | var m => rw [substitute, rename]
  | unary c x ih => rw [substitute, rename, ih h]
  | binary b x y ihx ihy =>
    simp only [payloads, List.mem_append, not_or] at h
    rw [substitute, rename, ihx h.1, ihy h.2]
  | lambda p e ihp ihe =>
    simp only [payloads, List.mem_append, not_or] at h
    rw [substitute, rename]
    simp only [nothing h.1, renameAll, List.foldl_nil, ihp h.1, ihe h.2]
  | letrec p f e ihp ihf ihe =>
    simp only [payloads, List.mem_append, not_or] at h
    rw [substitute, rename]
    simp only [nothing h.1.1, renameAll, List.foldl_nil, ihp h.1.1, ihf h.1.2, ihe h.2]

theorem eval_renamePlan (h : NewTo pairs t) : (renamePlan pairs t).eval replace = pure (t.renameAll pairs) := by
  induction pairs generalizing t with
  | nil => rfl
  | cons r rs ih =>
    obtain ⟨old, new⟩ := r
    rw [renamePlan, eval_bind, eval_ask, replace, pure_bind, substitute_var_eq_rename h.head]
    exact ih h.tail

theorem eval_belowPlan (h : NewTo pairs t) :
    (belowPlan n d pairs t).eval replace = pure (substitute n d (t.renameAll pairs)) := by
  rw [belowPlan, eval_bind, eval_renamePlan h, pure_bind, eval_ask, replace]

theorem eval_substitutePlan (i : Replacement) : (substitutePlan i).eval replace = replace i := by
  obtain ⟨n, d, t⟩ := i
  cases t with
  | name m | const o | var m => simp only [substitutePlan, eval_pure, replace, substitute]
  | unary c x => simp only [substitutePlan, eval_bind, eval_ask, eval_pure, replace, pure_bind, substitute]
  | binary b x y => simp only [substitutePlan, eval_bind, eval_ask, eval_pure, replace, pure_bind, substitute]
  | lambda p e =>
    obtain ⟨hp, he⟩ := payloads_subset_lambda p e
    simp only [substitutePlan, replace, substitute]
    split
    · rfl
    · rw [eval_bind, eval_belowPlan (newTo_refreshing hp), pure_bind, eval_bind,
        eval_belowPlan (newTo_refreshing he), pure_bind, eval_pure]
  | letrec p f e =>
    obtain ⟨hp, hf, he⟩ := payloads_subset_letrec p f e
    simp only [substitutePlan, replace, substitute]
    split
    · rfl
    · rw [eval_bind, eval_belowPlan (newTo_refreshing hp), pure_bind, eval_bind,
        eval_belowPlan (newTo_refreshing hf), pure_bind, eval_bind, eval_belowPlan (newTo_refreshing he), pure_bind,
        eval_pure]

/-! ### What the rows call for -/

/-- A bound on the number of places in the term. Bare names have no size, and there are no more than three of them
below a head. -/
def span (t : Term) : Nat := 3 * t.size + 1

/-- What a replacement weighs in a term of the span `s` in which `k` names can be captured. -/
def captureWeight (k s : Nat) : Nat := s * (1 + k * s)

/-- What there is to do in a term of the span `s` if up to `k` names are changed first. -/
def belowWeight (k s : Nat) : Nat := k * s + captureWeight k s

/-- The weight of a replacement. -/
def replacementWeight (i : Replacement) : Nat := captureWeight (capturable i.value i.body).length i.body.span

theorem captureWeight_mono {k k' : Nat} (h : k ≤ k') (s : Nat) : captureWeight k s ≤ captureWeight k' s :=
  Nat.mul_le_mul_left s (Nat.add_le_add_left (Nat.mul_le_mul_right s h) 1)

theorem belowWeight_add (k a b : Nat) : belowWeight k a + belowWeight k b ≤ belowWeight k (a + b) := by
  have hsum : belowWeight k (a + b) = belowWeight k a + belowWeight k b + 2 * k * a * b := by
    unfold belowWeight captureWeight
    ring
  omega

/-- What there is to do below a head weighs less than the replacement at the head. -/
theorem belowWeight_lt (k : Nat) {a s : Nat} (h : a < s) : belowWeight k a < captureWeight k s := by
  calc
    belowWeight k a = a * (1 + k * (a + 1)) := by unfold belowWeight captureWeight; ring
    _ ≤ a * (1 + k * s) := Nat.mul_le_mul_left a (Nat.add_le_add_left (Nat.mul_le_mul_left k h) 1)
    _ < s * (1 + k * s) := Nat.mul_lt_mul_of_pos_right h (by omega)

@[simp] theorem span_rename (old new : String) (t : Term) : (t.rename old new).span = t.span := by
  rw [span, size_rename, span]

@[simp] theorem span_renameAll (pairs : List (String × String)) (t : Term) : (t.renameAll pairs).span = t.span := by
  rw [span, size_renameAll, span]

theorem yields_renamePlan (h : NewTo pairs t) : (renamePlan pairs t).Yields IsReplaced (· = t.renameAll pairs) := by
  induction pairs generalizing t with
  | nil => rfl
  | cons r rs ih =>
    obtain ⟨old, new⟩ := r
    rintro _ rfl
    rw [substitute_var_eq_rename h.head]
    exact ih h.tail

/-- The term is gone through once for each pair. -/
theorem withinIf_renamePlan (h : NewTo pairs t) :
    (renamePlan pairs t).WithinIf IsReplaced replacementWeight (pairs.length * t.span) := by
  induction pairs generalizing t with
  | nil => trivial
  | cons r rs ih =>
    obtain ⟨old, new⟩ := r
    have hweight : replacementWeight ⟨old, .var new, t⟩ = t.span := by
      simp [replacementWeight, captureWeight, capturable_var_eq_nil h.head]
    rw [List.length_cons, Nat.succ_mul]
    refine (withinIf_ask_bind _ _).2 ⟨by omega, ?_⟩
    rintro _ rfl
    rw [substitute_var_eq_rename h.head, hweight, Nat.add_sub_cancel, ← span_rename old new t]
    exact ih h.tail

theorem withinIf_part {k : Nat} (ht : (capturable d t).length ≤ k) :
    (ask ⟨n, d, t⟩ : Plan Replacement Term Term).WithinIf IsReplaced replacementWeight (belowWeight k t.span) := by
  rw [withinIf_ask]
  exact Nat.le_trans (captureWeight_mono ht _) (Nat.le_add_left _ _)

/-- What is below a binder with the pattern `p`, whose names are changed first. -/
theorem withinIf_belowPlan {k : Nat} (hp : (capturable d p).length ≤ k) (ht : (capturable d t).length ≤ k)
    (hns : t.payloads ⊆ ns) :
    (belowPlan n d (refreshing p ns d) t).WithinIf IsReplaced replacementWeight (belowWeight k t.span) := by
  have hnew : NewTo (refreshing p ns d) t := newTo_refreshing hns
  have hrename := withinIf_renamePlan hnew
  rw [length_refreshing] at hrename
  refine (hrename.mono (Nat.mul_le_mul_right _ hp)).bind (yields_renamePlan hnew) ?_
  rintro _ rfl
  rw [withinIf_ask, replacementWeight, span_renameAll]
  exact captureWeight_mono (Nat.le_trans (length_capturable_le (capturable_renameAll_subset p d t ns)) ht) _

/-- Parts that stand side by side weigh no more than one part of their common span. -/
theorem withinIf_beside {k a b : Nat} {q : Plan Replacement Term Term} {c : Term → Plan Replacement Term Term}
    (hq : q.WithinIf IsReplaced replacementWeight (belowWeight k a))
    (hc : ∀ x, (c x).WithinIf IsReplaced replacementWeight (belowWeight k b)) :
    (q >>= c).WithinIf IsReplaced replacementWeight (belowWeight k (a + b)) :=
  (hq.seq hc).mono (belowWeight_add k a b)

/-- A row calls for what is below the head. -/
theorem withinIf_substitutePlan (n : String) (d t : Term) : ∃ a < t.span,
    (substitutePlan ⟨n, d, t⟩).WithinIf IsReplaced replacementWeight (belowWeight (capturable d t).length a) := by
  -- a part has no more names that can be captured than the term
  have part {x : Term} (hx : x.payloads ⊆ t.payloads) : (capturable d x).length ≤ (capturable d t).length :=
    length_capturable_le (capturable_subset hx)
  cases t with
  | name m | const o | var m => exact ⟨0, Nat.succ_pos _, trivial⟩
  | unary c x =>
    have hx : x.payloads ⊆ payloads (.unary c x) := List.Subset.refl _
    refine ⟨x.span + 0, by simp only [span, size]; omega, ?_⟩
    exact withinIf_beside (withinIf_part (part hx)) fun _ => withinIf_pure _
  | binary b x y =>
    have hx : x.payloads ⊆ payloads (.binary b x y) := by simp [payloads]
    have hy : y.payloads ⊆ payloads (.binary b x y) := by simp [payloads]
    refine ⟨x.span + (y.span + 0), by simp only [span, size]; omega, ?_⟩
    exact withinIf_beside (withinIf_part (part hx)) fun _ =>
      withinIf_beside (withinIf_part (part hy)) fun _ => withinIf_pure _
  | lambda p e =>
    obtain ⟨hp, he⟩ := payloads_subset_lambda p e
    refine ⟨p.span + (e.span + 0), by simp only [span, size]; omega, ?_⟩
    rw [substitutePlan]
    split
    · exact withinIf_pure _
    · exact withinIf_beside (withinIf_belowPlan (part hp) (part hp) hp) fun _ =>
        withinIf_beside (withinIf_belowPlan (part hp) (part he) he) fun _ => withinIf_pure _
  | letrec p f e =>
    obtain ⟨hp, hf, he⟩ := payloads_subset_letrec p f e
    refine ⟨p.span + (f.span + (e.span + 0)), by simp only [span, size]; omega, ?_⟩
    rw [substitutePlan]
    split
    · exact withinIf_pure _
    · exact withinIf_beside (withinIf_belowPlan (part hp) (part hp) hp) fun _ =>
        withinIf_beside (withinIf_belowPlan (part hp) (part hf) hf) fun _ =>
          withinIf_beside (withinIf_belowPlan (part hp) (part he) he) fun _ => withinIf_pure _

/-- **Substitution goes by the table**, and no row calls for more than its replacement weighs. -/
theorem obeys_substitutePlan : ObeysIf IsReplaced replace substitutePlan replacementWeight where
  eval_eq i := (eval_substitutePlan i).symm
  related i s t h := by
    cases h
    rfl
  within i := by
    obtain ⟨n, d, t⟩ := i
    obtain ⟨a, ha, hrow⟩ := withinIf_substitutePlan n d t
    exact ⟨_, belowWeight_lt _ ha, hrow⟩

/-- **Substitution ends**, after a number of calls that is quadratic in the size of the term and linear in the number of
names that could be captured, and linear in the size if there are none. -/
theorem halts_substitute (n : String) (d t : Term) (s : NameSupply) :
    Machine.Halts substitutePlan ⟨n, d, t⟩ s ((3 * t.size + 1) * (1 + (capturable d t).length * (3 * t.size + 1)))
      (.ok (substitute n d t), s) :=
  obeys_substitutePlan.halts ⟨n, d, t⟩ s

end Combinatory.Term
