import Combinatory.NameSupply

/-!
# Substitution

Replacing the free occurrences of a variable by a term. A binder whose pattern has a name that is free in the
replacement is renamed first, so that no free variable is captured.

## The model

`Term.rename old new` replaces free occurrences of one variable by another one. It takes no care of capture
and is used with names that occur nowhere in the term. `Term.refreshing` pairs the names of a binder that would
capture with fresh ones; all children of the binder are renamed, the pattern included. `Term.substitute` goes
below a binder only if the variable occurs free in it, and so leaves a term without free occurrences as it is.
Renaming keeps the size of a term, so the recursion is on the size.
-/

namespace Combinatory.Term

/-- Replaces the free occurrences of the variable `old` by the variable `new`. -/
def rename (old new : String) : Term → Term
  | .name n => .name n
  | .const o => .const o
  | .var n => if n = old then .var new else .var n
  | .unary u x => .unary u (x.rename old new)
  | .binary b x y => .binary b (x.rename old new) (y.rename old new)
  | .lambda p e =>
    if count old (.lambda p e) = 0 then .lambda p e else .lambda (p.rename old new) (e.rename old new)
  | .letrec p d e =>
    if count old (.letrec p d e) = 0 then .letrec p d e
    else .letrec (p.rename old new) (d.rename old new) (e.rename old new)

theorem size_rename (old new : String) (t : Term) : (t.rename old new).size = t.size := by
  fun_induction rename old new t <;> simp_all [size]

/-- Renames several variables, one after the other. -/
def renameAll (pairs : List (String × String)) (t : Term) : Term :=
  pairs.foldl (fun t (old, new) => t.rename old new) t

@[simp] theorem size_renameAll (pairs : List (String × String)) (t : Term) :
    (t.renameAll pairs).size = t.size := by
  induction pairs generalizing t with
  | nil => rfl
  | cons r rs ih => simpa [renameAll, size_rename] using ih (t.rename r.1 r.2)

/-- The names of the pattern `p` of a binder that would capture a free variable of `d`, each with a name that
occurs neither in `d` nor in the binder, whose names are `ns`. -/
def refreshing (p : Term) (ns : List String) (d : Term) : List (String × String) :=
  let captured := p.names.filter (· ∈ d.freeNames)
  captured.zip ((NameSupply.avoiding (ns ++ d.payloads)).drawMany captured.length).1

/-- Replaces the free occurrences of the variable `n` by `d`, without capturing the free variables of `d`. -/
def substitute (n : String) (d : Term) (t : Term) : Term :=
  match t with
  | .name m => .name m
  | .const o => .const o
  | .var m => if m = n then d else .var m
  | .unary u x => .unary u (substitute n d x)
  | .binary b x y => .binary b (substitute n d x) (substitute n d y)
  | .lambda p e =>
    if count n (.lambda p e) = 0 then .lambda p e
    else
      let r := refreshing p (payloads (.lambda p e)) d
      .lambda (substitute n d (p.renameAll r)) (substitute n d (e.renameAll r))
  | .letrec p f e =>
    if count n (.letrec p f e) = 0 then .letrec p f e
    else
      let r := refreshing p (payloads (.letrec p f e)) d
      .letrec (substitute n d (p.renameAll r)) (substitute n d (f.renameAll r))
        (substitute n d (e.renameAll r))
  termination_by t.size
  decreasing_by all_goals simp [size] <;> omega

/-! ### Sizes -/

theorem mem_payloads_rename {n old new : String} (ho : n ≠ old) (hn : n ≠ new) (t : Term) :
    n ∈ (t.rename old new).payloads ↔ n ∈ t.payloads := by
  fun_induction rename old new t <;> simp_all [payloads]

theorem count_rename {n old new : String} (ho : n ≠ old) (hn : n ≠ new) (t : Term) :
    (t.rename old new).count n = t.count n := by
  fun_induction rename old new t <;> simp_all [count, mem_payloads_rename ho hn]
  grind

theorem count_renameAll {n : String} {pairs : List (String × String)}
    (h : ∀ r ∈ pairs, n ≠ r.1 ∧ n ≠ r.2) (t : Term) : (t.renameAll pairs).count n = t.count n := by
  induction pairs generalizing t with
  | nil => rfl
  | cons r rs ih =>
    have hr := h r List.mem_cons_self
    have := ih (fun q hq => h q (List.mem_cons_of_mem _ hq)) (t.rename r.1 r.2)
    rw [count_rename hr.1 hr.2] at this
    exact this

theorem refreshing_ne {n : String} {p d : Term} {ns : List String} (hp : n ∉ p.payloads) (hns : n ∈ ns) :
    ∀ r ∈ refreshing p ns d, n ≠ r.1 ∧ n ≠ r.2 := by
  intro r hr
  obtain ⟨h1, h2⟩ := List.of_mem_zip hr
  constructor
  · rintro rfl
    simp at h1
    exact hp h1.1
  · rintro rfl
    exact NameSupply.drawMany_not_mem h2 (List.mem_append_left _ hns)

/-- Every free occurrence of `n` is replaced by `d`, and nothing else changes the size. -/
theorem size_substitute (n : String) (d t : Term) :
    (substitute n d t).size + t.count n = t.size + t.count n * d.size := by
  fun_induction substitute n d t with
  | case1 | case2 => simp [count, size]
  | case3 => simp [count, size]; omega
  | case4 m h => simp [count, size, h]
  | case5 u x ih => simp only [count, size]; omega
  | case6 b x y ihx ihy => simp only [count, size, Nat.add_mul]; omega
  | case7 p e h => simp [h]
  | case8 p e h r ihp ihe =>
    have hp : n ∉ p.payloads := fun hp => h (by simp [count, hp])
    have hr : ∀ q ∈ r, n ≠ q.1 ∧ n ≠ q.2 := refreshing_ne hp (mem_payloads_of_count_ne_zero h)
    rw [count_renameAll hr, size_renameAll] at ihp ihe
    simp only [count, size, hp, if_false, Nat.add_mul]
    omega
  | case9 p f e h => simp [h]
  | case10 p f e h r ihp ihf ihe =>
    have hp : n ∉ p.payloads := fun hp => h (by simp [count, hp])
    have hr : ∀ q ∈ r, n ≠ q.1 ∧ n ≠ q.2 := refreshing_ne hp (mem_payloads_of_count_ne_zero h)
    rw [count_renameAll hr, size_renameAll] at ihp ihf ihe
    simp only [count, size, hp, if_false, Nat.add_mul]
    omega

end Combinatory.Term
