import Combinatory.Grouping

/-!
# Grouped terms

The infix notation of a term has brackets where the levels of precedence ask for them. Which terms have all of them is
said by a grammar with a rule for each way to write a term; grouping gives a term of this grammar, and differs from the
given one in brackets only.

## The model

`Grouped l t` says that `t` can be written in a position of the level `l`. Every level has its own notation, and contains
the next tighter one: binders, then joins, applications, compositions and atoms. `CURSOR` has no level of its own, so a
term below it may be derived in several ways. `GroupedPattern` is what binders bind, and `GroupedLine` a whole term,
which may be a line. `Fits l t` is what the rules ask of the parts of `t`, read off its head; it does without the rules
that pass from one level to the next.

`ungroup` takes out all brackets.

## What is proved

* `regroups_groupAt`, `groupAt_of_grouped` — grouping at a level leads to terms of that level, and leaves them as they are.
* `group_eq_ok` — so does grouping as a whole, which only adds brackets.
-/

namespace Combinatory

namespace Level

/-- The level of a given tightness. -/
def ofTightness : Nat → Level
  | 0 => .inline
  | 1 => .join
  | 2 => .app
  | 3 => .comp
  | _ => .atom

theorem ofTightness_tightness (l : Level) : ofTightness l.tightness = l := by cases l <;> rfl

theorem tightness_inline_le (l : Level) : Level.inline.tightness ≤ l.tightness := Nat.zero_le _

theorem bracket_of_le {asked own : Level} (h : asked.tightness ≤ own.tightness) (t : Term) :
    asked.bracket own t = t :=
  if_pos h

end Level

namespace Term

variable {l l' : Level} {t u p q : Term}

/-! ### The grammar -/

/-- What a binder binds: a variable below any number of `QUOTE` and `CURSOR`. -/
inductive GroupedPattern : Term → Prop where
  | var (n : String) : GroupedPattern (.var n)
  | quote {p : Term} : GroupedPattern p → GroupedPattern (.quote p)
  | cursor {p : Term} : GroupedPattern p → GroupedPattern (.cursor p)

/-- The terms that can be written in a position of a level. -/
inductive Grouped : Level → Term → Prop where
  -- binders
  | lambda {p e : Term} : GroupedPattern p → Grouped .inline e → Grouped .inline (.lambda p e)
  | letrec {p d e : Term} : GroupedPattern p → Grouped .join d → Grouped .inline e →
    Grouped .inline (.letrec p d e)
  | ofJoin {t : Term} : Grouped .join t → Grouped .inline t
  -- joins
  | join {x y : Term} : Grouped .join x → Grouped .join y → Grouped .join (.join x y)
  | ofApp {t : Term} : Grouped .app t → Grouped .join t
  -- applications
  | app {x y : Term} : Grouped .app x → Grouped .atom y → Grouped .app (.app x y)
  | ofComp {t : Term} : Grouped .comp t → Grouped .app t
  -- compositions
  | comp {x y : Term} : Grouped .comp x → Grouped .comp y → Grouped .comp (.comp x y)
  | ofAtom {t : Term} : Grouped .atom t → Grouped .comp t
  -- atoms
  | const (o : Const) : Grouped .atom (.const o)
  | var (n : String) : Grouped .atom (.var n)
  | rand {x y : Term} : Grouped .inline x → Grouped .inline y → Grouped .atom (.rand x y)
  | quote {x : Term} : Grouped .inline x → Grouped .atom (.quote x)
  | less {x y : Term} : Grouped .join x → Grouped .join y → Grouped .atom (.less x y)
  | nless {x y : Term} : Grouped .join x → Grouped .join y → Grouped .atom (.nless x y)
  | equal {x y : Term} : Grouped .join x → Grouped .join y → Grouped .atom (.equal x y)
  | paren {x : Term} : Grouped .inline x → Grouped .atom (.paren x)
  -- any level
  | cursor {l : Level} {x : Term} : Grouped l x → Grouped l (.cursor x)

/-- The terms that can be written on their own. -/
inductive GroupedLine : Term → Prop where
  | define {x y : Term} : Grouped .atom x → Grouped .join y → GroupedLine (.define x y)
  | assert {x : Term} : Grouped .join x → GroupedLine (.assert x)
  | cursor {x : Term} : GroupedLine x → GroupedLine (.cursor x)
  | inline {t : Term} : Grouped .inline t → GroupedLine t

theorem Grouped.ofNext {n : Nat} (h : Grouped (.ofTightness (n + 1)) t) : Grouped (.ofTightness n) t :=
  match n with
  | 0 => .ofJoin h
  | 1 => .ofApp h
  | 2 => .ofComp h
  | 3 => .ofAtom h
  | _ + 4 => h

/-- A level contains the tighter ones. -/
theorem Grouped.loosen (h : Grouped l' t) (hl : l.tightness ≤ l'.tightness) : Grouped l t := by
  have chain {n m : Nat} (hnm : n ≤ m) (h : Grouped (.ofTightness m) t) : Grouped (.ofTightness n) t := by
    induction hnm with
    | refl => exact h
    | step _ ih => exact ih h.ofNext
  rw [← l.ofTightness_tightness]
  rw [← l'.ofTightness_tightness] at h
  exact chain hl h

theorem Grouped.ofTightest (h : Grouped .atom t) (l : Level) : Grouped l t := h.loosen (by cases l <;> decide)

/-- What is put into brackets can be written anywhere. -/
theorem Grouped.bracket (h : Grouped l' t) (l : Level) : Grouped l (l.bracket l' t) := by
  unfold Level.bracket
  split
  · next hl => exact h.loosen hl
  · exact (Grouped.paren (h.loosen (Level.tightness_inline_le l'))).ofTightest l

/-! ### Derivations by the head -/

/-- What the grammar asks of the parts of a term in a position of a level. -/
def Fits (l : Level) : Term → Prop
  | .const _ | .var _ => True
  | .quote x | .paren x => Grouped .inline x
  | .cursor x => Grouped l x
  | .app x y => l.tightness ≤ Level.app.tightness ∧ Grouped .app x ∧ Grouped .atom y
  | .comp x y => l.tightness ≤ Level.comp.tightness ∧ Grouped .comp x ∧ Grouped .comp y
  | .join x y => l.tightness ≤ Level.join.tightness ∧ Grouped .join x ∧ Grouped .join y
  | .rand x y => Grouped .inline x ∧ Grouped .inline y
  | .less x y | .nless x y | .equal x y => Grouped .join x ∧ Grouped .join y
  | .lambda p e => l.tightness ≤ Level.inline.tightness ∧ GroupedPattern p ∧ Grouped .inline e
  | .letrec p d e =>
    l.tightness ≤ Level.inline.tightness ∧ GroupedPattern p ∧ Grouped .join d ∧ Grouped .inline e
  | .name _ | .assert _ | .define _ _ | .stack _ _ => False

theorem Fits.loosen (h : Fits l' t) (hl : l.tightness ≤ l'.tightness) : Fits l t := by
  fun_cases Fits l t with
  | case1 | case2 => trivial
  | case3 | case4 | case9 | case10 | case11 | case12 => exact h
  | case5 x => exact Grouped.loosen h hl
  | case6 | case7 | case8 | case13 | case14 => exact ⟨Nat.le_trans hl h.1, h.2⟩
  | case15 | case16 | case17 | case18 => exact h

/-- A term is derived by the rule of its head, and the other rules only pass between levels. -/
theorem grouped_iff_fits : Grouped l t ↔ Fits l t := by
  constructor
  · intro h
    induction h with
    | lambda hp he _ => exact ⟨Nat.le_refl _, hp, he⟩
    | letrec hp hd he _ _ => exact ⟨Nat.le_refl _, hp, hd, he⟩
    | join hx hy _ _ | app hx hy _ _ | comp hx hy _ _ => exact ⟨Nat.le_refl _, hx, hy⟩
    | ofJoin _ ih | ofApp _ ih | ofComp _ ih | ofAtom _ ih => exact ih.loosen (by decide)
    | const _ | var _ => trivial
    | rand hx hy _ _ | less hx hy _ _ | nless hx hy _ _ | equal hx hy _ _ => exact ⟨hx, hy⟩
    | quote hx _ | paren hx _ | cursor hx _ => exact hx
  · intro h
    fun_cases Fits l t with
    | case1 o => exact (Grouped.const o).ofTightest l
    | case2 n => exact (Grouped.var n).ofTightest l
    | case3 x => exact (Grouped.quote h).ofTightest l
    | case4 x => exact (Grouped.paren h).ofTightest l
    | case5 x => exact .cursor h
    | case6 x y => exact (Grouped.app h.2.1 h.2.2).loosen h.1
    | case7 x y => exact (Grouped.comp h.2.1 h.2.2).loosen h.1
    | case8 x y => exact (Grouped.join h.2.1 h.2.2).loosen h.1
    | case9 x y => exact (Grouped.rand h.1 h.2).ofTightest l
    | case10 x y => exact (Grouped.less h.1 h.2).ofTightest l
    | case11 x y => exact (Grouped.nless h.1 h.2).ofTightest l
    | case12 x y => exact (Grouped.equal h.1 h.2).ofTightest l
    | case13 p e => exact (Grouped.lambda h.2.1 h.2.2).loosen h.1
    | case14 p d e => exact (Grouped.letrec h.2.1 h.2.2.1 h.2.2.2).loosen h.1
    | case15 | case16 | case17 | case18 => exact h.elim

/-! ### Brackets -/

/-- The term without its brackets. -/
def ungroup : Term → Term
  | .name n => .name n
  | .const o => .const o
  | .var n => .var n
  | .paren x => x.ungroup
  | .unary u x => .unary u x.ungroup
  | .binary b x y => .binary b x.ungroup y.ungroup
  | .lambda p e => .lambda p.ungroup e.ungroup
  | .letrec p d e => .letrec p.ungroup d.ungroup e.ungroup

theorem ungroup_bracket (asked own : Level) (t : Term) : (asked.bracket own t).ungroup = t.ungroup := by
  unfold Level.bracket
  split
  · rfl
  · rfl

/-- The term `u`, in a position of the level `l`, is `t` with other brackets. -/
structure Regroups (l : Level) (t u : Term) : Prop where
  /-- All brackets that are needed are there. -/
  grouped : Grouped l u
  /-- Nothing but brackets is changed. -/
  ungroup_eq : u.ungroup = t.ungroup

namespace Regroups

variable {x x' y y' p d d' e e' : Term} {b : Binary} {m k : Level}

theorem atom (h : Regroups .atom t u) (l : Level) : Regroups l t u := ⟨h.grouped.ofTightest l, h.ungroup_eq⟩

theorem bracket (h : Regroups l' t u) (l : Level) : Regroups l t (l.bracket l' u) :=
  ⟨h.grouped.bracket l, (ungroup_bracket l l' u).trans h.ungroup_eq⟩

theorem quote (h : Regroups .inline x x') : Regroups .atom (.quote x) (.quote x') :=
  ⟨.quote h.grouped, congrArg Term.quote h.ungroup_eq⟩

theorem paren (h : Regroups .inline x x') : Regroups .atom (.paren x) (.paren x') := ⟨.paren h.grouped, h.ungroup_eq⟩

theorem cursor (h : Regroups l x x') : Regroups l (.cursor x) (.cursor x') :=
  ⟨.cursor h.grouped, congrArg Term.cursor h.ungroup_eq⟩

theorem binary (hx : Regroups m x x') (hy : Regroups k y y')
    (hb : Grouped m x' → Grouped k y' → Grouped l (.binary b x' y')) :
    Regroups l (.binary b x y) (.binary b x' y') where
  grouped := hb hx.grouped hy.grouped
  ungroup_eq := by
    show Term.binary b x'.ungroup y'.ungroup = .binary b x.ungroup y.ungroup
    rw [hx.ungroup_eq, hy.ungroup_eq]

theorem lambda (hp : GroupedPattern p) (he : Regroups .inline e e') :
    Regroups .inline (.lambda p e) (.lambda p e') where
  grouped := .lambda hp he.grouped
  ungroup_eq := congrArg (Term.lambda p.ungroup) he.ungroup_eq

theorem letrec (hp : GroupedPattern p) (hd : Regroups .join d d') (he : Regroups .inline e e') :
    Regroups .inline (.letrec p d e) (.letrec p d' e') where
  grouped := .letrec hp hd.grouped he.grouped
  ungroup_eq := by
    show Term.letrec p.ungroup d'.ungroup e'.ungroup = .letrec p.ungroup d.ungroup e.ungroup
    rw [hd.ungroup_eq, he.ungroup_eq]

end Regroups

/-! ### Grouping -/

theorem groupPattern_of_grouped (h : GroupedPattern p) : p.groupPattern = .ok p := by
  induction h with
  | var n => rfl
  | quote _ ih | cursor _ ih =>
    rw [groupPattern, ih]
    rfl

/-- A pattern is never changed. -/
theorem grouped_of_groupPattern (h : p.groupPattern = .ok q) : GroupedPattern p ∧ q = p := by
  induction p generalizing q with
  | var n =>
    cases h
    exact ⟨.var n, rfl⟩
  | unary c x ih =>
    cases c with
    | paren | assert => cases h
    | quote =>
      simp only [groupPattern, bind_eq_ok, pure_eq_ok] at h
      obtain ⟨x', hx, rfl⟩ := h
      obtain ⟨hp, rfl⟩ := ih hx
      exact ⟨.quote hp, rfl⟩
    | cursor =>
      simp only [groupPattern, bind_eq_ok, pure_eq_ok] at h
      obtain ⟨x', hx, rfl⟩ := h
      obtain ⟨hp, rfl⟩ := ih hx
      exact ⟨.cursor hp, rfl⟩
  | name _ | const _ | binary _ _ _ | lambda _ _ | letrec _ _ _ => cases h

/-- **Levels**: grouping at a level leads to the terms of that level. -/
theorem regroups_groupAt (h : t.groupAt l = .ok u) : Regroups l t u := by
  induction t generalizing l u with
  | name n => cases h
  | const o =>
    cases h
    exact .atom ⟨.const o, rfl⟩ l
  | var n =>
    cases h
    exact .atom ⟨.var n, rfl⟩ l
  | unary c x ih =>
    cases c with
    | assert => cases h
    | quote =>
      simp only [groupAt, bind_eq_ok, pure_eq_ok] at h
      obtain ⟨x', hx, rfl⟩ := h
      exact .atom (.quote (ih hx)) l
    | paren =>
      simp only [groupAt, bind_eq_ok, pure_eq_ok] at h
      obtain ⟨x', hx, rfl⟩ := h
      exact .atom (.paren (ih hx)) l
    | cursor =>
      simp only [groupAt, bind_eq_ok, pure_eq_ok] at h
      obtain ⟨x', hx, rfl⟩ := h
      exact .cursor (ih hx)
  | binary b x y ihx ihy =>
    cases b with
    | define | stack => cases h
    | app | comp | join =>
      simp only [groupAt, bind_eq_ok, pure_eq_ok] at h
      obtain ⟨x', hx, y', hy, rfl⟩ := h
      refine .bracket (.binary (ihx hx) (ihy hy) ?_) l
      exact fun hx hy => grouped_iff_fits.2 ⟨Nat.le_refl _, hx, hy⟩
    | rand | less | nless | equal =>
      simp only [groupAt, bind_eq_ok, pure_eq_ok] at h
      obtain ⟨x', hx, y', hy, rfl⟩ := h
      exact .binary (ihx hx) (ihy hy) fun hx hy => grouped_iff_fits.2 ⟨hx, hy⟩
  | lambda p e _ ihe =>
    simp only [groupAt, bind_eq_ok, pure_eq_ok] at h
    obtain ⟨p', hp, e', he, rfl⟩ := h
    obtain ⟨hpat, rfl⟩ := grouped_of_groupPattern hp
    exact .bracket (.lambda hpat (ihe he)) l
  | letrec p d e _ ihd ihe =>
    simp only [groupAt, bind_eq_ok, pure_eq_ok] at h
    obtain ⟨p', hp, d', hd, e', he, rfl⟩ := h
    obtain ⟨hpat, rfl⟩ := grouped_of_groupPattern hp
    exact .bracket (.letrec hpat (ihd hd) (ihe he)) l

/-- A term of a level needs no more brackets there. -/
theorem groupAt_of_grouped (h : Grouped l t) : t.groupAt l = .ok t := by
  rw [grouped_iff_fits] at h
  induction t generalizing l with
  | name _ => exact h.elim
  | const _ | var _ => rfl
  | unary u x ih =>
    cases u with
    | assert => exact h.elim
    | quote | paren | cursor =>
      rw [groupAt, ih (grouped_iff_fits.1 h)]
      rfl
  | binary b x y ihx ihy =>
    cases b with
    | define | stack => exact h.elim
    | app | comp | join =>
      obtain ⟨hl, hx, hy⟩ := h
      rw [groupAt, ihx (grouped_iff_fits.1 hx), ihy (grouped_iff_fits.1 hy)]
      exact congrArg Except.ok (Level.bracket_of_le hl _)
    | rand | less | nless | equal =>
      rw [groupAt, ihx (grouped_iff_fits.1 h.1), ihy (grouped_iff_fits.1 h.2)]
      rfl
  | lambda p e _ ihe =>
    obtain ⟨hl, hp, he⟩ := h
    rw [groupAt, groupPattern_of_grouped hp, ihe (grouped_iff_fits.1 he)]
    exact congrArg Except.ok (Level.bracket_of_le hl _)
  | letrec p d e _ ihd ihe =>
    obtain ⟨hl, hp, hd, he⟩ := h
    rw [groupAt, groupPattern_of_grouped hp, ihd (grouped_iff_fits.1 hd), ihe (grouped_iff_fits.1 he)]
    exact congrArg Except.ok (Level.bracket_of_le hl _)

/-! ### Lines -/

theorem groupedLine_of_group (h : t.group = .ok u) : GroupedLine u ∧ u.ungroup = t.ungroup := by
  have below {t u : Term} (h : t.groupAt .inline = .ok u) : GroupedLine u ∧ u.ungroup = t.ungroup :=
    ⟨.inline (regroups_groupAt h).grouped, (regroups_groupAt h).ungroup_eq⟩
  induction t generalizing u with
  | unary c x ih =>
    cases c with
    | assert =>
      simp only [group, bind_eq_ok, pure_eq_ok] at h
      obtain ⟨x', hx, rfl⟩ := h
      have hx := regroups_groupAt hx
      exact ⟨.assert hx.grouped, congrArg assert hx.ungroup_eq⟩
    | cursor =>
      simp only [group, bind_eq_ok, pure_eq_ok] at h
      obtain ⟨x', hx, rfl⟩ := h
      obtain ⟨hline, heq⟩ := ih hx
      exact ⟨.cursor hline, congrArg cursor heq⟩
    | quote | paren => exact below h
  | binary b x y _ _ =>
    cases b with
    | define =>
      simp only [group, bind_eq_ok, pure_eq_ok] at h
      obtain ⟨x', hx, y', hy, rfl⟩ := h
      have hx := regroups_groupAt hx
      have hy := regroups_groupAt hy
      refine ⟨.define hx.grouped hy.grouped, ?_⟩
      rw [ungroup, ungroup, hx.ungroup_eq, hy.ungroup_eq]
    | app | comp | join | rand | stack | less | nless | equal => exact below h
  | name _ | const _ | var _ | lambda _ _ | letrec _ _ _ => exact below h

/-- A term below the lines is grouped as one, also below `CURSOR`. -/
theorem group_of_grouped (h : Grouped .inline t) : t.group = .ok t := by
  induction t with
  | unary c x ih =>
    cases c with
    | assert => exact (grouped_iff_fits.1 h).elim
    | cursor =>
      rw [group, ih (grouped_iff_fits.1 h)]
      rfl
    | quote | paren => exact groupAt_of_grouped h
  | binary b x y _ _ =>
    cases b with
    | define => exact (grouped_iff_fits.1 h).elim
    | app | comp | join | rand | stack | less | nless | equal => exact groupAt_of_grouped h
  | name _ | const _ | var _ | lambda _ _ | letrec _ _ _ => exact groupAt_of_grouped h

theorem group_of_groupedLine (h : GroupedLine t) : t.group = .ok t := by
  induction h with
  | define hx hy =>
    rw [group, groupAt_of_grouped hx, groupAt_of_grouped hy]
    rfl
  | assert hx =>
    rw [group, groupAt_of_grouped hx]
    rfl
  | cursor _ ih =>
    rw [group, ih]
    rfl
  | inline ht => exact group_of_grouped ht

/-- **Grouping puts a term into the grammar and changes nothing else**: what a term is grouped to can be written, and
is the term up to brackets. The terms that grouping leaves as they are are those that can be written, so a second
grouping changes nothing. -/
theorem group_eq_ok (t u : Term) :
    (t.group = .ok u → GroupedLine u ∧ u.ungroup = t.ungroup ∧ u.group = .ok u) ∧
      (t.group = .ok t ↔ GroupedLine t) := by
  refine ⟨fun h => ?_, fun h => (groupedLine_of_group h).1, group_of_groupedLine⟩
  obtain ⟨hline, heq⟩ := groupedLine_of_group h
  exact ⟨hline, heq, group_of_groupedLine hline⟩

/-- A join that is an argument is put into brackets, below the `CURSOR` in front of it; the brackets of the composition
stay. -/
theorem group_eq_ok_cursor :
    (app (.var "f") (cursor (join (.var "x") (paren (comp (.var "y") (.var "z")))))).group =
        .ok (app (.var "f") (cursor (paren (join (.var "x") (paren (comp (.var "y") (.var "z"))))))) ∧
      GroupedLine (app (.var "f") (cursor (paren (join (.var "x") (paren (comp (.var "y") (.var "z"))))))) := by
  have hgroup : (app (.var "f") (cursor (join (.var "x") (paren (comp (.var "y") (.var "z")))))).group =
      .ok (app (.var "f") (cursor (paren (join (.var "x") (paren (comp (.var "y") (.var "z"))))))) := rfl
  exact ⟨hgroup, ((group_eq_ok _ _).1 hgroup).1⟩

end Term

end Combinatory
