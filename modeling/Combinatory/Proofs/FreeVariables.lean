import Combinatory.Proofs.SubstitutionSteps

/-!
# Free variables

There are three accounts of the free variables of a term. A walk through the term collects them, with a stack of the
names that are bound around the place it has come to. The count of the free occurrences of one variable asks at each
binder whether it shadows the variable. Substitution replaces the occurrences, below binders that it may have to rename
first. This module proves that the three agree, on all terms and for all patterns of binders, those with binders inside
them among others.

## The model

`Term.walk` goes through a term from left to right, with a `Walk` as its state. At a binder it puts the names of the
pattern on the stack, goes through what is in scope, and cuts the stack back to the height that it had.

## What is proved

* `bound_walk`, `mem_found_walk` — a walk restores the stack, and it has found what it had found before and the free
  variables of the term that were not bound.
* `found_walk` — from an empty stack it finds the free variables of the term, in their order.
* `free_variables_agree` — the walk, the count and the substitution agree. Substitution ends, leaves a term without free
  occurrences as it is, and trades each free occurrence for what is substituted.
-/

namespace Combinatory

/-- The state of a walk through a term. -/
@[ext] structure Walk where
  /-- The names that are bound here, the innermost last. -/
  bound : List String := []
  /-- The free variables that have been found, in ascending order. -/
  found : List String := []
  deriving DecidableEq, Repr

namespace Walk

/-- Below a binder with the pattern `p`. -/
def enter (p : Term) (w : Walk) : Walk := { w with bound := w.bound ++ p.names }

/-- Back where the stack had the given height. -/
def leave (height : Nat) (w : Walk) : Walk := { w with bound := w.bound.take height }

/-- At a variable. -/
def meet (n : String) (w : Walk) : Walk := if n ∈ w.bound then w else { w with found := insertName n w.found }

@[simp] theorem found_enter (p : Term) (w : Walk) : (w.enter p).found = w.found := rfl

@[simp] theorem found_leave (height : Nat) (w : Walk) : (w.leave height).found = w.found := rfl

@[simp] theorem mem_bound_enter {n : String} {p : Term} {w : Walk} :
    n ∈ (w.enter p).bound ↔ n ∈ w.bound ∨ n ∈ p.payloads := by
  simp [enter]

/-- What a binder has put on the stack is cut off again. -/
theorem bound_leave {p : Term} {w w' : Walk} (h : w'.bound = (w.enter p).bound) :
    (w'.leave w.bound.length).bound = w.bound := by
  simp [leave, h, enter]

@[simp] theorem bound_meet (n : String) (w : Walk) : (w.meet n).bound = w.bound := by
  unfold meet
  split <;> rfl

theorem mem_found_meet {n m : String} {w : Walk} : n ∈ (w.meet m).found ↔ n ∈ w.found ∨ n = m ∧ n ∉ w.bound := by
  unfold meet
  split
  · next hm =>
    refine ⟨.inl, ?_⟩
    rintro (h | ⟨rfl, hn⟩)
    · exact h
    · exact absurd hm hn
  · next hm =>
    rw [mem_insertName]
    constructor
    · rintro (rfl | h)
      · exact .inr ⟨rfl, hm⟩
      · exact .inl h
    · rintro (h | ⟨rfl, -⟩)
      · exact .inr h
      · exact .inl rfl

end Walk

namespace Term

variable {n : String} {t : Term}

/-- Collects the free variables of a term. The pattern of a binder is not gone through. -/
def walk : Term → Walk → Walk
  | .name _, w | .const _, w => w
  | .var n, w => w.meet n
  | .unary _ x, w => x.walk w
  | .binary _ x y, w => y.walk (x.walk w)
  | .lambda p e, w => (e.walk (w.enter p)).leave w.bound.length
  | .letrec p d e, w => (e.walk (d.walk (w.enter p))).leave w.bound.length

/-! ### The walk -/

/-- A walk restores the stack. -/
theorem bound_walk (t : Term) (w : Walk) : (t.walk w).bound = w.bound := by
  induction t generalizing w with
  | name _ | const _ => rfl
  | var n => exact w.bound_meet n
  | unary _ _ ih => exact ih w
  | binary _ _ _ ihx ihy => rw [walk, ihy, ihx]
  | lambda _ _ _ ihe => exact Walk.bound_leave (ihe _)
  | letrec _ _ _ _ ihd ihe => exact Walk.bound_leave ((ihe _).trans (ihd _))

/-- A walk finds the free variables that are not bound where it starts, and keeps what it has found before. -/
theorem mem_found_walk (t : Term) (w : Walk) :
    n ∈ (t.walk w).found ↔ n ∈ w.found ∨ n ∈ t.freeOccurrences ∧ n ∉ w.bound := by
  induction t generalizing w with
  | name _ | const _ => simp [walk, freeOccurrences]
  | var m => simp [walk, Walk.mem_found_meet, freeOccurrences]
  | unary _ _ ih => exact ih w
  | binary _ x y ihx ihy =>
    rw [walk, ihy, ihx, bound_walk, mem_freeOccurrences_binary]
    tauto
  | lambda p e _ ihe =>
    rw [walk, Walk.found_leave, ihe, Walk.found_enter, Walk.mem_bound_enter, mem_freeOccurrences_lambda]
    tauto
  | letrec p d e _ ihd ihe =>
    rw [walk, Walk.found_leave, ihe, ihd, bound_walk, Walk.found_enter, Walk.mem_bound_enter,
      mem_freeOccurrences_letrec]
    tauto

/-- What a walk has found stays in ascending order. -/
theorem pairwise_found_walk {w : Walk} (h : w.found.Pairwise (· < ·)) : (t.walk w).found.Pairwise (· < ·) := by
  induction t generalizing w with
  | name _ | const _ => exact h
  | var n =>
    rw [walk, Walk.meet]
    split
    · exact h
    · exact pairwise_insertName h
  | unary _ _ ih => exact ih h
  | binary _ _ _ ihx ihy => exact ihy (ihx h)
  | lambda p _ _ ihe => exact ihe (w := w.enter p) h
  | letrec p _ _ _ ihd ihe => exact ihe (ihd (w := w.enter p) h)

/-- **The walk finds the free variables**, each once and in ascending order. -/
theorem found_walk (t : Term) : (t.walk {}).found = t.freeNames := by
  refine eq_of_mem_iff (pairwise_found_walk List.Pairwise.nil) (pairwise_nameSet _) fun n => ?_
  rw [mem_found_walk, mem_freeNames]
  simp

/-! ### The three accounts -/

theorem mem_freeNames_iff_count_pos : n ∈ t.freeNames ↔ 0 < t.count n := by
  rw [mem_freeNames, Nat.pos_iff_ne_zero, Ne, count_eq_zero_iff, not_not]

/-- **The walk, the count and the substitution agree**. The walk ends with an empty stack, and what it has collected are
the variables that have a free occurrence. Substitution comes to an end on every term, with a bound on the calls that it
makes, those that rename binders included. Without a free occurrence it changes nothing. Otherwise each occurrence is
traded for what is substituted, and nothing else changes the size, whatever has been renamed. -/
theorem free_variables_agree (n : String) (d t : Term) :
    t.walk {} = { found := t.freeNames } ∧
      (n ∈ t.freeNames ↔ 0 < t.count n) ∧
      (∀ s, Machine.Halts substitutePlan ⟨n, d, t⟩ s
        ((3 * t.size + 1) * (1 + (capturable d t).length * (3 * t.size + 1))) (.ok (substitute n d t), s)) ∧
      (t.count n = 0 → substitute n d t = t) ∧
      (substitute n d t).size + t.count n = t.size + t.count n * d.size := by
  refine ⟨?_, mem_freeNames_iff_count_pos, halts_substitute n d t, substitute_of_count_eq_zero, size_substitute n d t⟩
  exact Walk.ext (bound_walk t {}) (found_walk t)

/-- Both free variables of what is substituted for `x` are in the pattern, one of them below a binder. Of the two
occurrences of `x` one is bound, and all those of `z` are. -/
theorem free_variables_agree_nested :
    size (substitute "x" (app (.var "y") (.var "z"))
        (.lambda (join (.var "y") (.lambda (.var "z") (.var "z"))) (app (.var "x") (.lambda (.var "x") (.var "z")))))
      = 13 ∧
    substitute "z" (app (.var "y") (.var "z"))
        (.lambda (join (.var "y") (.lambda (.var "z") (.var "z"))) (app (.var "x") (.lambda (.var "x") (.var "z"))))
      = .lambda (join (.var "y") (.lambda (.var "z") (.var "z"))) (app (.var "x") (.lambda (.var "x") (.var "z"))) := by
  obtain ⟨-, -, -, -, hsize⟩ := free_variables_agree "x" (app (.var "y") (.var "z"))
    (.lambda (join (.var "y") (.lambda (.var "z") (.var "z"))) (app (.var "x") (.lambda (.var "x") (.var "z"))))
  obtain ⟨-, -, -, hsame, -⟩ := free_variables_agree "z" (app (.var "y") (.var "z"))
    (.lambda (join (.var "y") (.lambda (.var "z") (.var "z"))) (app (.var "x") (.lambda (.var "x") (.var "z"))))
  refine ⟨?_, hsame (by decide)⟩
  have hcount : count "x" (.lambda (join (.var "y") (.lambda (.var "z") (.var "z")))
      (app (.var "x") (.lambda (.var "x") (.var "z")))) = 1 := by decide
  rw [hcount] at hsize
  exact Nat.add_right_cancel hsize

end Term

end Combinatory
