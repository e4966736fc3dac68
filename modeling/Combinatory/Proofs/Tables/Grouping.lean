import Combinatory.Proofs.Grouping
import Combinatory.Proofs.Tables.Evaluation

/-!
# The tables of grouping

Grouping by tables, one for each level, comes to what `Term.group` gives.

## The proof

The table of a level has rules for few heads and hands all other terms on to the next tighter level. The last one puts
what it cannot take into brackets and starts again from the loosest level. So a term is grouped at the level of its head
(`levelOf`), from whatever level it comes, with brackets if it has to pass the last level on the way
(`exec_groupAt_bracket`). A cursor is taken at all levels, and is the only exception.

## What is proved

* `exec_groupAt`, `exec_group` — grouping ends without a fault.
-/

namespace Combinatory.Tables

variable {t : Term} {l m : Level}

theorem exec_groupPattern_eq (t : Term) :
    Attempt.exec answer (groupPattern t) = (evaluate "parenthesize_pattern" groupPatternRules t).run' () :=
  exec_apply_inContext .groupPattern t ()

theorem exec_groupAt_eq (l : Level) (t : Term) :
    Attempt.exec answer (groupAt l t) = (evaluate (Table.groupAt l).name (groupAtRules l) t).run' () :=
  exec_apply_inContext (.groupAt l) t ()

theorem exec_group_eq (t : Term) : Attempt.exec answer (group t) = (evaluate "parenthesize" groupRules t).run' () :=
  exec_apply_inContext .group t ()

/-! ### Rules -/

section Rules

variable (name n : String) (test : Term → Bool) (f g : Term → Rewrite Term) (rs : List (Rule (Handler Unit) Term))

@[simp] theorem evaluate_keepRule (t : Term) :
    evaluate name (keepRule n test :: rs) t = if test t then pure t else evaluate name rs t := by
  cases h : test t <;> simp [keepRule, h]

@[simp] theorem evaluate_handRule (t : Term) :
    evaluate name (handRule f :: rs) t = liftM (Attempt.exec answer (f t)) := by
  simp [handRule]

@[simp] theorem evaluate_unaryRule (u : Unary) (x : Term) :
    evaluate name (unaryRule u f :: rs) (.unary u x) = Term.unary u <$> liftM (Attempt.exec answer (f x)) := by
  simp [unaryRule]

@[simp] theorem evaluate_binaryRule (o : Binary) (x y : Term) : evaluate name (binaryRule o f g :: rs) (.binary o x y) =
    Term.binary o <$> liftM (Attempt.exec answer (f x)) <*> liftM (Attempt.exec answer (g y)) := by
  simp [binaryRule, seq_eq_bind_map]

@[simp] theorem evaluate_unaryRule_of_head?_ne {u : Unary} (h : t.head? ≠ some (.unary u)) :
    evaluate name (unaryRule u f :: rs) t = evaluate name rs t := by
  simp [unaryRule, bind_node_of_head?_ne h]

@[simp] theorem evaluate_binaryRule_of_head?_ne {o : Binary} (h : t.head? ≠ some (.binary o)) :
    evaluate name (binaryRule o f g :: rs) t = evaluate name rs t := by
  simp [binaryRule, bind_node_of_head?_ne h]

end Rules

@[simp] theorem exec_groupPattern (t : Term) : Attempt.exec answer (groupPattern t) = Run.ofOutcome t.groupPattern := by
  induction t with
  | unary u x ih =>
    rw [exec_groupPattern_eq]
    cases u <;> simp [groupPatternRules, Term.groupPattern, ih, Term.isVar, Term.varName?]
  | name _ | const _ | var _ | binary _ _ _ | lambda _ _ | letrec _ _ _ =>
    rw [exec_groupPattern_eq]
    simp [groupPatternRules, Term.groupPattern, Term.isVar, Term.varName?]

/-! ### Levels -/

/-- The level whose table has a rule for a head. -/
def levelOf : Option Head → Level
  | some .lambda | some .letrec => .inline
  | some (.binary .join) => .join
  | some (.binary .app) => .app
  | some (.binary .comp) => .comp
  | _ => .atom

/-- The next tighter level. -/
def tighter : Level → Level
  | .inline => .join
  | .join => .app
  | .app => .comp
  | .comp | .atom => .atom

@[simp] theorem bracket_atom (l : Level) (t : Term) : l.bracket .atom t = t :=
  Level.bracket_of_le (by cases l <;> decide) t

theorem tightness_tighter (hl : l.tightness < Level.atom.tightness) : (tighter l).tightness = l.tightness + 1 := by
  cases l <;> simp_all [tighter, Level.tightness]

section NotCursor

variable (hcursor : t.head? ≠ some (.unary .cursor))
include hcursor

/-- A term that is not of a level is handed on to the next one. -/
theorem exec_groupAt_tighter (hl : l ≠ .atom) (h : levelOf t.head? ≠ l) :
    Attempt.exec answer (groupAt l t) = Attempt.exec answer (groupAt (tighter l) t) := by
  have other {k : Head} (hk : levelOf (some k) = l) : t.head? ≠ some k := fun hhead => h (hhead ▸ hk)
  rw [exec_groupAt_eq]
  cases l with
  | atom => exact absurd rfl hl
  | inline =>
    have hlambda : t.head? ≠ some .lambda := other rfl
    have hletrec : t.head? ≠ some .letrec := other rfl
    simp [groupAtRules, tighter, bind_node_of_head?_ne, hcursor, hlambda, hletrec]
  | join =>
    have hjoin : t.head? ≠ some (.binary .join) := other rfl
    simp [groupAtRules, tighter, hcursor, hjoin]
  | app =>
    have happ : t.head? ≠ some (.binary .app) := other rfl
    simp [groupAtRules, tighter, hcursor, happ]
  | comp =>
    have hcomp : t.head? ≠ some (.binary .comp) := other rfl
    simp [groupAtRules, tighter, hcursor, hcomp]

/-- A term is handed on until it is at its level. -/
theorem exec_groupAt_of_le (h : l.tightness ≤ m.tightness)
    (hm : ∀ k, l.tightness ≤ k.tightness → k.tightness < m.tightness → levelOf t.head? ≠ k) :
    Attempt.exec answer (groupAt l t) = Attempt.exec answer (groupAt m t) := by
  induction hn : m.tightness - l.tightness generalizing l with
  | zero =>
    have heq : l.tightness = m.tightness := by omega
    rw [← Level.ofTightness_tightness l, heq, Level.ofTightness_tightness]
  | succ n ih =>
    have hlt : l.tightness < m.tightness := by omega
    have hle : m.tightness ≤ Level.atom.tightness := by cases m <;> decide
    have hnext := tightness_tighter (Nat.lt_of_lt_of_le hlt hle)
    have hl : l ≠ .atom := by
      rintro rfl
      omega
    rw [exec_groupAt_tighter hcursor hl (hm l Nat.le.refl hlt)]
    refine ih (by omega) (fun k hk => hm k (by omega)) (by omega)

theorem exec_groupAt_levelOf (h : l.tightness ≤ (levelOf t.head?).tightness) :
    Attempt.exec answer (groupAt l t) = Attempt.exec answer (groupAt (levelOf t.head?) t) := by
  refine exec_groupAt_of_le hcursor h ?_
  rintro k - hk rfl
  exact Nat.lt_irrefl _ hk

end NotCursor

theorem exec_groupAt_atom (h : levelOf t.head? ≠ .atom) :
    Attempt.exec answer (groupAt .atom t) = Term.paren <$> Attempt.exec answer (groupAt .inline t) := by
  rw [exec_groupAt_eq]
  cases t with
  | binary o x y =>
    cases o <;> simp_all [levelOf, groupAtRules, isOperator, Term.isConst, Term.isVar, Term.varName?]
  | lambda p e | letrec p d e =>
    simp [groupAtRules, isOperator, Term.isConst, Term.isVar, Term.varName?]
  | name _ | const _ | var _ | unary _ _ => exact absurd rfl h

/-- What is too loose for a position is bracketed. -/
theorem exec_groupAt_bracket (hcursor : t.head? ≠ some (.unary .cursor)) (l : Level) :
    Attempt.exec answer (groupAt l t) =
      l.bracket (levelOf t.head?) <$> Attempt.exec answer (groupAt (levelOf t.head?) t) := by
  unfold Level.bracket
  split_ifs with h
  · rw [exec_groupAt_levelOf hcursor h, id_map']
  · have hle (k : Level) : k.tightness ≤ Level.atom.tightness := by cases k <;> decide
    have hatom : levelOf t.head? ≠ .atom := fun heq => h (heq ▸ hle l)
    rw [exec_groupAt_of_le hcursor (hle l), exec_groupAt_atom hatom,
      exec_groupAt_levelOf hcursor (Level.tightness_inline_le _)]
    rintro k hk - rfl
    exact h hk

/-- Terms are grouped at a level as their tables say: a term below its position is put into brackets, and the position
of a cursor is that of what it marks. -/
@[simp] theorem exec_groupAt (l : Level) (t : Term) :
    Attempt.exec answer (groupAt l t) = Run.ofOutcome (t.groupAt l) := by
  induction t generalizing l with
  | name n | const o | var n =>
    rw [exec_groupAt_bracket (by simp), exec_groupAt_eq]
    simp [levelOf, groupAtRules, isOperator, Term.isConst, Term.isVar, Term.varName?, Term.groupAt, Table.name]
  | unary u x ih =>
    by_cases hu : u = .cursor
    · subst hu
      rw [exec_groupAt_eq]
      cases l <;> simp [groupAtRules, Term.isConst, Term.isVar, Term.varName?, ih, Term.groupAt]
    · rw [exec_groupAt_bracket (by simpa using hu), exec_groupAt_eq]
      cases u <;> simp_all [levelOf, groupAtRules, isOperator, Term.isConst, Term.isVar, Term.varName?,
        Term.groupAt, Table.name]
  | binary o x y ihx ihy =>
    rw [exec_groupAt_bracket (by simp), exec_groupAt_eq]
    cases o <;> simp [levelOf, groupAtRules, isOperator, Term.isConst, Term.isVar, Term.varName?, ihx, ihy,
      Term.groupAt, Table.name]
  | lambda p e _ ih =>
    rw [exec_groupAt_bracket (by simp), exec_groupAt_eq]
    simp [levelOf, groupAtRules, ih, Term.groupAt]
  | letrec p d e _ ihd ihe =>
    rw [exec_groupAt_bracket (by simp), exec_groupAt_eq]
    simp [levelOf, groupAtRules, ihd, ihe, Term.groupAt]

@[simp] theorem exec_group (t : Term) : Attempt.exec answer (group t) = Run.ofOutcome t.group := by
  induction t with
  | unary u x ih =>
    rw [exec_group_eq]
    cases u <;> simp [groupRules, ih, Term.group]
  | binary o x y =>
    rw [exec_group_eq]
    cases o <;> simp [groupRules, Term.group]
  | name _ | const _ | var _ | lambda _ _ | letrec _ _ _ =>
    rw [exec_group_eq]
    simp [groupRules, Term.group]

end Combinatory.Tables
