import Combinatory.Term.Basic

/-!
# Names in terms

Which names a term contains, which of its variables are free, and how often one of them occurs free.

## The model

`LAMBDA p e` and `LETREC p d e` bind every name of the pattern `p`, wherever it stands in `p`; a `LAMBDA`
scopes over `e`, a `LETREC` over `d` and `e`. The pattern itself is not in scope of the binder and has no
free variables. Sets of names are ascending lists without repetitions, in the order of code points.
-/

namespace Combinatory

/-- Inserts a name into an ascending list of names. -/
def insertName (n : String) : List String → List String
  | [] => [n]
  | m :: ms => if n < m then n :: m :: ms else if n = m then m :: ms else m :: insertName n ms

/-- The names of a list in ascending order, each once. -/
def nameSet (ns : List String) : List String := ns.foldr insertName []

@[simp] theorem mem_insertName {n m : String} {ms : List String} :
    n ∈ insertName m ms ↔ n = m ∨ n ∈ ms := by
  induction ms with
  | nil => simp [insertName]
  | cons k ks ih =>
    simp only [insertName]
    split
    · simp
    · split
      · next h => subst h; simp
      · simp only [List.mem_cons, ih]; grind

@[simp] theorem mem_nameSet {n : String} {ns : List String} : n ∈ nameSet ns ↔ n ∈ ns := by
  induction ns with
  | nil => simp [nameSet]
  | cons m ms ih => simp [nameSet] at ih; simp [nameSet, ih]

namespace Term

/-- Every name in the term, from left to right. -/
def payloads : Term → List String
  | .name n | .var n => [n]
  | .const _ => []
  | .unary _ x => x.payloads
  | .binary _ x y => x.payloads ++ y.payloads
  | .lambda p e => p.payloads ++ e.payloads
  | .letrec p d e => p.payloads ++ d.payloads ++ e.payloads

/-- The set of names in the term. -/
def names (t : Term) : List String := nameSet t.payloads

/-- The variables that occur free, from left to right. -/
def freeOccurrences : Term → List String
  | .name _ | .const _ => []
  | .var n => [n]
  | .unary _ x => x.freeOccurrences
  | .binary _ x y => x.freeOccurrences ++ y.freeOccurrences
  | .lambda p e => e.freeOccurrences.filter (· ∉ p.payloads)
  | .letrec p d e => (d.freeOccurrences ++ e.freeOccurrences).filter (· ∉ p.payloads)

/-- The set of variables that occur free. -/
def freeNames (t : Term) : List String := nameSet t.freeOccurrences

/-- How often the variable `n` occurs free. -/
def count (n : String) : Term → Nat
  | .name _ | .const _ => 0
  | .var m => if m = n then 1 else 0
  | .unary _ x => x.count n
  | .binary _ x y => x.count n + y.count n
  | .lambda p e => if n ∈ p.payloads then 0 else p.count n + e.count n
  | .letrec p d e => if n ∈ p.payloads then 0 else p.count n + d.count n + e.count n

@[simp] theorem mem_names {n : String} {t : Term} : n ∈ t.names ↔ n ∈ t.payloads := by simp [names]

@[simp] theorem mem_freeNames {n : String} {t : Term} : n ∈ t.freeNames ↔ n ∈ t.freeOccurrences := by
  simp [freeNames]

theorem mem_payloads_of_count_ne_zero {n : String} {t : Term} (h : t.count n ≠ 0) : n ∈ t.payloads := by
  induction t with
  | name _ | const _ => simp [count] at h
  | var m => simp [count] at h; simp [payloads, h]
  | unary _ x ih => exact ih h
  | binary _ x y ihx ihy => simp [count] at h; simp [payloads]; grind
  | lambda p e ihp ihe => simp [count] at h; simp [payloads]; grind
  | letrec p d e ihp ihd ihe => simp [count] at h; simp [payloads]; grind

end Term

end Combinatory
