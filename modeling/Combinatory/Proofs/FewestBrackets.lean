import Combinatory.Proofs.DecompilationRules
import Combinatory.Proofs.Grouping

/-!
# No bracket too many

Among all ways to put brackets into a term so that it can be written, grouping finds one with the fewest.

## The model

`brackets` counts the brackets of a term. The other ways to write a term are given by the grammar alone: they are the
terms `v` of `Grouped` or `GroupedLine` with `v.ungroup = t`, wherever their brackets stand, also around what needs none,
and on either side of a `CURSOR`.

Brackets that are put around a term loosen the level below them, so two ways to write a term cannot be compared position
by position. What carries the comparison is that one bracket is worth all levels: a term that is grouped for the loosest
level needs at most one bracket more for any other (`exists_groupAt_inline`).

## What is proved

* `brackets_groupAt_le` — a term that can be written at a level gets no more brackets there than it has, once its own
  are taken out.
* `group_fewest_brackets` — so grouping as a whole gives the fewest brackets.
-/

namespace Combinatory.Term

variable {l : Level} {t u v p : Term}

/-! ### Counting brackets -/

/-- How many brackets the term has. -/
def brackets (t : Term) : Nat := t.heads.count (.unary .paren)

theorem brackets_paren (x : Term) : (paren x).brackets = x.brackets + 1 := List.count_cons_self

theorem brackets_unary {c : Unary} (hc : c ≠ .paren) (x : Term) : (Term.unary c x).brackets = x.brackets :=
  List.count_cons_of_ne fun h => hc (Head.unary.inj h)

theorem brackets_binary (b : Binary) (x y : Term) :
    (Term.binary b x y).brackets = x.brackets + y.brackets := by
  simp [brackets, heads]

theorem brackets_lambda (p e : Term) : (Term.lambda p e).brackets = p.brackets + e.brackets := by
  simp [brackets, heads]

theorem brackets_letrec (p d e : Term) :
    (Term.letrec p d e).brackets = p.brackets + (d.brackets + e.brackets) := by
  simp [brackets, heads]

/-- A position of the loosest level saves one bracket at most. -/
theorem brackets_bracket_le (asked own : Level) (t : Term) :
    (asked.bracket own t).brackets ≤ (Level.inline.bracket own t).brackets + 1 := by
  rw [Level.bracket_of_le (Level.tightness_inline_le own)]
  unfold Level.bracket
  split
  · exact Nat.le_succ _
  · exact Nat.le_of_eq (brackets_paren t)

/-! ### Taking brackets out -/

theorem ungroup_unary {c : Unary} (hc : c ≠ .paren) (x : Term) : (Term.unary c x).ungroup = .unary c x.ungroup := by
  cases c with
  | paren => exact absurd rfl hc
  | quote | cursor | assert => rfl

theorem ungroup_of_brackets_eq_zero (h : t.brackets = 0) : t.ungroup = t := by
  induction t with
  | name _ | const _ | var _ => rfl
  | unary c x ih =>
    by_cases hc : c = .paren
    · subst hc
      rw [brackets_paren] at h
      cases h
    · rw [brackets_unary hc] at h
      rw [ungroup_unary hc, ih h]
  | binary b x y ihx ihy =>
    rw [brackets_binary, Nat.add_eq_zero_iff] at h
    rw [ungroup, ihx h.1, ihy h.2]
  | lambda p e ihp ihe =>
    rw [brackets_lambda, Nat.add_eq_zero_iff] at h
    rw [ungroup, ihp h.1, ihe h.2]
  | letrec p d e ihp ihd ihe =>
    rw [brackets_letrec, Nat.add_eq_zero_iff, Nat.add_eq_zero_iff] at h
    rw [ungroup, ihp h.1, ihd h.2.1, ihe h.2.2]

theorem GroupedPattern.ungroup_eq (h : GroupedPattern p) : p.ungroup = p := by
  induction h with
  | var n => rfl
  | quote _ ih | cursor _ ih => rw [ungroup_unary (by decide), ih]

/-! ### Grouping without brackets -/

/-- **One bracket is worth all levels**: for the loosest level, a term gets at most one bracket less than for any
other. -/
theorem exists_groupAt_inline (h : t.groupAt l = .ok u) :
    ∃ v, t.groupAt .inline = .ok v ∧ u.brackets ≤ v.brackets + 1 := by
  induction t generalizing u with
  | name _ => cases h
  | const _ | var _ => exact ⟨u, h, Nat.le_succ _⟩
  | unary c x ih =>
    cases c with
    | assert => cases h
    | quote | paren => exact ⟨u, h, Nat.le_succ _⟩
    | cursor =>
      -- the only head that hands the level on
      simp only [groupAt, bind_eq_ok, pure_eq_ok] at h ⊢
      obtain ⟨x', hx, rfl⟩ := h
      obtain ⟨w, hw, hle⟩ := ih hx
      refine ⟨_, ⟨w, hw, rfl⟩, ?_⟩
      rwa [brackets_unary (by decide), brackets_unary (by decide)]
  | binary b x y _ _ =>
    cases b with
    | define | stack => cases h
    | rand | less | nless | equal => exact ⟨u, h, Nat.le_succ _⟩
    | app | comp | join =>
      simp only [groupAt, bind_eq_ok, pure_eq_ok] at h ⊢
      obtain ⟨x', hx, y', hy, rfl⟩ := h
      exact ⟨_, ⟨x', hx, y', hy, rfl⟩, brackets_bracket_le l _ _⟩
  | lambda p e _ _ =>
    simp only [groupAt, bind_eq_ok, pure_eq_ok] at h ⊢
    obtain ⟨p', hp, e', he, rfl⟩ := h
    exact ⟨_, ⟨p', hp, e', he, rfl⟩, brackets_bracket_le l _ _⟩
  | letrec p d e _ _ _ =>
    simp only [groupAt, bind_eq_ok, pure_eq_ok] at h ⊢
    obtain ⟨p', hp, d', hd, e', he, rfl⟩ := h
    exact ⟨_, ⟨p', hp, d', hd, e', he, rfl⟩, brackets_bracket_le l _ _⟩

/-- **Levels**: a term that can be written at a level gets no more brackets there than it has, once its own are taken
out. -/
theorem brackets_groupAt_le (hv : Grouped l v) (h : v.ungroup.groupAt l = .ok u) : u.brackets ≤ v.brackets := by
  induction v generalizing l u with
  | name _ => exact (grouped_iff_fits.1 hv).elim
  | const _ | var _ =>
    cases h
    exact Nat.le_refl _
  | unary c x ih =>
    cases c with
    | assert => exact (grouped_iff_fits.1 hv).elim
    | paren =>
      -- the brackets are gone from the term, but the level below them was the loosest
      obtain ⟨w, hw, hle⟩ := exists_groupAt_inline h
      have hx : w.brackets ≤ x.brackets := ih (grouped_iff_fits.1 hv) hw
      rw [brackets_paren]
      omega
    | quote | cursor =>
      rw [ungroup_unary (by decide)] at h
      simp only [groupAt, bind_eq_ok, pure_eq_ok] at h
      obtain ⟨x', hx, rfl⟩ := h
      rw [brackets_unary (by decide), brackets_unary (by decide)]
      exact ih (grouped_iff_fits.1 hv) hx
  | binary b x y ihx ihy =>
    rw [ungroup] at h
    rw [brackets_binary]
    cases b with
    | define | stack => exact (grouped_iff_fits.1 hv).elim
    | app | comp | join =>
      obtain ⟨hl, hvx, hvy⟩ := grouped_iff_fits.1 hv
      simp only [groupAt, bind_eq_ok, pure_eq_ok, Level.bracket_of_le hl] at h
      obtain ⟨x', hx, y', hy, rfl⟩ := h
      rw [brackets_binary]
      exact Nat.add_le_add (ihx hvx hx) (ihy hvy hy)
    | rand | less | nless | equal =>
      obtain ⟨hvx, hvy⟩ := grouped_iff_fits.1 hv
      simp only [groupAt, bind_eq_ok, pure_eq_ok] at h
      obtain ⟨x', hx, y', hy, rfl⟩ := h
      rw [brackets_binary]
      exact Nat.add_le_add (ihx hvx hx) (ihy hvy hy)
  | lambda p e _ ihe =>
    obtain ⟨hl, hp, hve⟩ := grouped_iff_fits.1 hv
    simp only [ungroup, hp.ungroup_eq, groupAt, groupPattern_of_grouped hp, bind_eq_ok, pure_eq_ok,
      Level.bracket_of_le hl, Except.ok.injEq, exists_eq_left'] at h
    obtain ⟨e', he, rfl⟩ := h
    rw [brackets_lambda, brackets_lambda]
    exact Nat.add_le_add_left (ihe hve he) _
  | letrec p d e _ ihd ihe =>
    obtain ⟨hl, hp, hvd, hve⟩ := grouped_iff_fits.1 hv
    simp only [ungroup, hp.ungroup_eq, groupAt, groupPattern_of_grouped hp, bind_eq_ok, pure_eq_ok,
      Level.bracket_of_le hl, Except.ok.injEq, exists_eq_left'] at h
    obtain ⟨d', hd, e', he, rfl⟩ := h
    rw [brackets_letrec, brackets_letrec]
    refine Nat.add_le_add_left (Nat.add_le_add ?_ ?_) _
    · exact ihd hvd hd
    · exact ihe hve he

/-! ### Lines -/

/-- Below the lines, grouping a whole term is grouping for the loosest level. -/
theorem group_ungroup (hv : Grouped .inline v) : v.ungroup.group = v.ungroup.groupAt .inline := by
  induction v with
  | unary c x ih =>
    cases c with
    | assert => exact (grouped_iff_fits.1 hv).elim
    | paren => exact ih (grouped_iff_fits.1 hv)
    | cursor =>
      rw [ungroup_unary (by decide), group, groupAt, ih (grouped_iff_fits.1 hv)]
    | quote => rfl
  | binary b x y _ _ =>
    cases b with
    | define => exact (grouped_iff_fits.1 hv).elim
    | app | comp | join | rand | stack | less | nless | equal => rfl
  | name _ | const _ | var _ | lambda _ _ | letrec _ _ _ => rfl

theorem brackets_group_le (hv : GroupedLine v) (h : v.ungroup.group = .ok u) : u.brackets ≤ v.brackets := by
  induction hv generalizing u with
  | define hx hy =>
    simp only [ungroup, group, bind_eq_ok, pure_eq_ok] at h
    obtain ⟨x', hx', y', hy', rfl⟩ := h
    rw [brackets_binary, brackets_binary]
    exact Nat.add_le_add (brackets_groupAt_le hx hx') (brackets_groupAt_le hy hy')
  | assert hx =>
    rw [ungroup_unary (by decide)] at h
    simp only [group, bind_eq_ok, pure_eq_ok] at h
    obtain ⟨x', hx', rfl⟩ := h
    rw [brackets_unary (by decide), brackets_unary (by decide)]
    exact brackets_groupAt_le hx hx'
  | cursor _ ih =>
    rw [ungroup_unary (by decide)] at h
    simp only [group, bind_eq_ok, pure_eq_ok] at h
    obtain ⟨x', hx', rfl⟩ := h
    rw [brackets_unary (by decide), brackets_unary (by decide)]
    exact ih hx'
  | inline ht =>
    rw [group_ungroup ht] at h
    exact brackets_groupAt_le ht h

/-- **Grouping puts in no bracket too many**: a term without brackets is grouped to one that can be written and is the
term up to brackets, and whatever else can be written and is the term up to brackets has as many of them at least. -/
theorem group_fewest_brackets {t u : Term} (ht : t.brackets = 0) (h : t.group = .ok u) :
    GroupedLine u ∧ u.ungroup = t ∧ ∀ v, GroupedLine v → v.ungroup = t → u.brackets ≤ v.brackets := by
  have htt : t.ungroup = t := ungroup_of_brackets_eq_zero ht
  obtain ⟨hline, heq⟩ := groupedLine_of_group h
  refine ⟨hline, heq.trans htt, ?_⟩
  rintro v hv rfl
  exact brackets_group_le hv h

/-- The two brackets of this composition cannot be saved, on neither side of the `CURSOR`. -/
theorem group_fewest_brackets_cursor :
    (comp (cursor (app (.var "f") (.var "x"))) (join (.var "y") (.var "z"))).group =
        .ok (comp (cursor (paren (app (.var "f") (.var "x")))) (paren (join (.var "y") (.var "z")))) ∧
      ∀ v, GroupedLine v → v.ungroup = comp (cursor (app (.var "f") (.var "x"))) (join (.var "y") (.var "z")) →
        2 ≤ v.brackets := by
  have hgroup : (comp (cursor (app (.var "f") (.var "x"))) (join (.var "y") (.var "z"))).group =
      .ok (comp (cursor (paren (app (.var "f") (.var "x")))) (paren (join (.var "y") (.var "z")))) := rfl
  exact ⟨hgroup, (group_fewest_brackets (by decide) hgroup).2.2⟩

end Combinatory.Term
