import Combinatory.Error

/-!
# Grouping

Inserting `PAREN` where the infix notation of a term needs brackets. Binders extend as far as possible, then
come joins, applications and compositions; everything else is an atom. `CURSOR` marks a position and takes
whatever level its content has.

## The model

The levels of precedence are numbered from the loosest to the tightest. An operand is written at a level that
its position asks for; a term that is looser than that is put into `PAREN`. `DEFINE` and `ASSERT` are lines and
may stand only at the top. What has no infix notation is an error: lines and spines below the top, bare names,
and binder patterns other than quoted variables.
-/

namespace Combinatory

/-- A level of precedence. -/
inductive Level where
  /-- Binders, which extend as far as possible. -/
  | inline
  /-- Joins. -/
  | join
  /-- Applications. -/
  | app
  /-- Compositions. -/
  | comp
  /-- Terms that need no brackets anywhere. -/
  | atom
  deriving DecidableEq, Repr

/-- How tightly a level binds. -/
def Level.tightness : Level → Nat
  | .inline => 0
  | .join => 1
  | .app => 2
  | .comp => 3
  | .atom => 4

/-- Brackets a term of the level `own` in a position of the level `asked`, if it is too loose for it. -/
def Level.bracket (asked own : Level) (t : Term) : Term :=
  if asked.tightness ≤ own.tightness then t else .paren t

namespace Term

/-- Groups the pattern of a binder: a variable below any number of `QUOTE` and `CURSOR`. -/
def groupPattern : Term → Except Error Term
  | .var n => .ok (.var n)
  | .quote x => return .quote (← x.groupPattern)
  | .cursor x => return .cursor (← x.groupPattern)
  | t => .error (.unmatched "parenthesize_pattern" t)

/-- Groups a term that stands in a position of the given level. -/
def groupAt : Term → Level → Except Error Term
  | .const o, _ => .ok (.const o)
  | .var n, _ => .ok (.var n)
  | .quote x, _ => return .quote (← x.groupAt .inline)
  | .paren x, _ => return .paren (← x.groupAt .inline)
  | .cursor x, l => return .cursor (← x.groupAt l)
  | .app x y, l => return l.bracket .app (.app (← x.groupAt .app) (← y.groupAt .atom))
  | .comp x y, l => return l.bracket .comp (.comp (← x.groupAt .comp) (← y.groupAt .comp))
  | .join x y, l => return l.bracket .join (.join (← x.groupAt .join) (← y.groupAt .join))
  | .rand x y, _ => return .rand (← x.groupAt .inline) (← y.groupAt .inline)
  | .less x y, _ => return .less (← x.groupAt .join) (← y.groupAt .join)
  | .nless x y, _ => return .nless (← x.groupAt .join) (← y.groupAt .join)
  | .equal x y, _ => return .equal (← x.groupAt .join) (← y.groupAt .join)
  | .lambda p e, l => return l.bracket .inline (.lambda (← p.groupPattern) (← e.groupAt .inline))
  | .letrec p d e, l =>
    return l.bracket .inline (.letrec (← p.groupPattern) (← d.groupAt .join) (← e.groupAt .inline))
  | t, _ => .error (.unmatched "parenthesize_atom" t)

/-- Groups a whole term, which may be a line. -/
def group : Term → Except Error Term
  | .define x y => return .define (← x.groupAt .atom) (← y.groupAt .join)
  | .assert x => return .assert (← x.groupAt .join)
  | .cursor x => return .cursor (← x.group)
  | t => t.groupAt .inline

end Term

end Combinatory
