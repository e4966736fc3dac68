import Combinatory.Canonical
import Combinatory.Proofs.Tables.Normalization

/-!
# The tables of bound names

Renaming bound variables by tables comes to what `Term.canonical` gives.

## The proof

A table keeps one list of names, with those of the innermost binder last, and remembers where these start. The function
has the names of the pattern in one list and those of the binders around in another, both with the innermost first. The
list of the table is the reverse of the two (`renamingOf`), which stays so while a pattern is renamed; so there always
are names from the start on. A binder leaves the list as it was.

## What is proved

* `exec_renamePattern`, `exec_renameTerm` — what the tables do to what they keep.
* `exec_canonical`, `exec_simplify` — both end without a fault.
-/

namespace Combinatory.Tables

variable {outer bound : Scope} {s : NameSupply}

/-- What is kept while a pattern is renamed that has bound some names so far. -/
def renamingOf (outer bound : Scope) (s : NameSupply) : Renaming :=
  { scope := (bound ++ outer).reverse, start := outer.length, supply := s }

@[simp] theorem scope_renamingOf : (renamingOf outer bound s).scope = (bound ++ outer).reverse := rfl

@[simp] theorem start_renamingOf : (renamingOf outer bound s).start = outer.length := rfl

@[simp] theorem supply_renamingOf : (renamingOf outer bound s).supply = s := rfl

theorem exec_renamePattern_eq (t : Term) :
    (renamePattern t).exec answer = evaluate "rename_pattern" renamePatternRules t :=
  exec_apply .renamePattern t

theorem exec_renameTerm_eq (t : Term) : (renameTerm t).exec answer = evaluate "rename_term" renameTermRules t :=
  exec_apply .renameTerm t

/-- The names of the innermost binder are always there. -/
theorem exec_boundHere (outer bound : Scope) (s : NameSupply) :
    (boundHere.exec answer).run (renamingOf outer bound s) = pure (bound.reverse, renamingOf outer bound s) := by
  simp [boundHere, renamingOf]

theorem any_fst_reverse (n : String) (bound : Scope) :
    bound.reverse.any (·.1 == n) = (bound.lookup n).isSome := by
  induction bound with
  | nil => rfl
  | cons r rs ih =>
    obtain ⟨m, k⟩ := r
    rw [List.reverse_cons, List.any_append, ih, List.lookup_cons, BEq.comm]
    cases hm : m == n <;> simp [hm]

/-- The variables of a pattern are renamed as they are met, and a pattern that binds a name twice is refused. -/
theorem exec_renamePattern (t : Term) (outer bound : Scope) (s : NameSupply) :
    ((renamePattern t).exec answer).run (renamingOf outer bound s) =
      (fun q => (q.1.1, renamingOf outer q.1.2 q.2)) <$> (Run.ofFresh (t.canonicalPattern bound)).run s := by
  induction t generalizing bound s with
  | name n | const o =>
    rw [exec_renamePattern_eq]
    simp [renamePatternRules, Term.canonicalPattern, Term.isNode]
  | var n =>
    have hbound := any_fst_reverse n bound
    have hnext : renamingOf outer ((n, s.draw.1) :: bound) s.draw.2 =
        ⟨outer.reverse ++ (bound.reverse ++ [(n, s.draw.1)]), outer.length, s.draw.2⟩ := by
      simp [renamingOf]
    rw [exec_renamePattern_eq]
    cases hn : (bound.lookup n).isSome with
    | true => simp [renamePatternRules, Term.canonicalPattern, exec_boundHere, hn, hn ▸ hbound]
    | false => simp [renamePatternRules, Term.canonicalPattern, exec_boundHere, hn, hn ▸ hbound, hnext]
  | unary u x ih =>
    rw [exec_renamePattern_eq]
    simp [renamePatternRules, Term.canonicalPattern, Term.isNode, ih]
  | binary o x y ihx ihy =>
    rw [exec_renamePattern_eq]
    simp [renamePatternRules, Term.canonicalPattern, Term.isNode, ihx, ihy]
  | lambda p e ihp ihe =>
    rw [exec_renamePattern_eq]
    simp [renamePatternRules, Term.canonicalPattern, Term.isNode, ihp, ihe]
  | letrec p d e ihp ihd ihe =>
    rw [exec_renamePattern_eq]
    simp [renamePatternRules, Term.canonicalPattern, Term.isNode, ihp, ihd, ihe]

/-- Below a binder its pattern has bound nothing yet, and in the end the scope is as it was. -/
theorem exec_belowBinder (f : Handler Renaming Term) (r : Renaming) : ((belowBinder f).exec answer).run r =
    (fun q => (q.1, { scope := q.2.scope.take r.scope.length, start := r.start, supply := q.2.supply })) <$>
      (f.exec answer).run (renamingOf r.scope.reverse [] r.supply) := by
  simp [belowBinder, renamingOf]

/-- The bound variables of a term are renamed by the innermost binder that has them, and nothing but the supply is
changed in the end. -/
theorem exec_renameTerm (t : Term) (r : Renaming) : ((renameTerm t).exec answer).run r =
    (fun q => (q.1, { r with supply := q.2 })) <$> (Run.ofFresh (t.canonicalIn r.scope.reverse)).run r.supply := by
  induction t generalizing r with
  | name n | const o =>
    rw [exec_renameTerm_eq]
    simp [renameTermRules, Term.canonicalIn, Term.isNode]
  | var n =>
    rw [exec_renameTerm_eq]
    simp [renameTermRules, Term.canonicalIn, Renaming.lookup]
  | unary u x ih =>
    rw [exec_renameTerm_eq]
    simp [renameTermRules, Term.canonicalIn, Term.isNode, ih]
  | binary o x y ihx ihy =>
    rw [exec_renameTerm_eq]
    simp [renameTermRules, Term.canonicalIn, Term.isNode, ihx, ihy]
  | lambda p e _ ihe =>
    rw [exec_renameTerm_eq]
    simp [renameTermRules, Term.canonicalIn, exec_belowBinder, exec_renamePattern, ihe]
  | letrec p d e _ ihd ihe =>
    rw [exec_renameTerm_eq]
    simp [renameTermRules, Term.canonicalIn, exec_belowBinder, exec_renamePattern, ihd, ihe]

@[simp] theorem exec_canonical (t : Term) : Attempt.exec answer (canonical t) = Run.ofOutcome t.canonical := by
  simp [canonical, exec_renameTerm, Term.canonical]

@[simp] theorem exec_simplify (t : Term) : Attempt.exec answer (simplify t) = Run.ofOutcome t.simplify := by
  simp [simplify, Term.simplify]

end Combinatory.Tables
