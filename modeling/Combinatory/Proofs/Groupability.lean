import Combinatory.Proofs.Grouping
import Combinatory.Proofs.RuleMachine

/-!
# What can be grouped

Which terms have an infix notation: the binders bind variables, a line stands on its own, and there are no spines.
Grouping accepts these terms and no others.

## The model

`parts` lists the parts of a term from the outside in, each with the heads that stand above it. A part is `Placed` below
these heads if it may stand there. Levels do not come in: they only say where brackets are put. A term is `Groupable` if
all its parts are placed.

Grouping goes by levels, and by whether a line may still come. So what it decides is stated for a term below any heads,
`PlacedBelow` and `Refused`, with one rule for each number of children that says how the outcomes of the children make up
that of the term.

## What is proved

* `decides_groupAt` — at every level, grouping accepts what is placed, and refuses the rest with a part of it that has no
  rule.
* `group_ok_iff_groupable` — so grouping as a whole accepts the terms that are groupable. They have one line at most.
-/

namespace Combinatory.Term

variable {t x y p d e : Term} {c : Unary} {b : Binary} {a : Head} {above above' : List Head}

/-! ### Parts -/

/-- The parts of a term that stands below the given heads, each with the heads above it, the nearest first. -/
def partsBelow (above : List Head) : Term → List (List Head × Term)
  | .name n => [(above, .name n)]
  | .const o => [(above, .const o)]
  | .var n => [(above, .var n)]
  | .unary c x => (above, .unary c x) :: x.partsBelow (.unary c :: above)
  | .binary b x y =>
    (above, .binary b x y) :: (x.partsBelow (.binary b :: above) ++ y.partsBelow (.binary b :: above))
  | .lambda p e => (above, .lambda p e) :: (p.partsBelow (.lambda :: above) ++ e.partsBelow (.lambda :: above))
  | .letrec p d e =>
    (above, .letrec p d e) :: (p.partsBelow (.letrec :: above) ++
      (d.partsBelow (.letrec :: above) ++ e.partsBelow (.letrec :: above)))

/-- The parts of a term, each with the heads above it. -/
def parts (t : Term) : List (List Head × Term) := t.partsBelow []

/-- Whether the term is a line. -/
def isLine : Term → Bool
  | .define _ _ | .assert _ => true
  | _ => false

/-- The term may stand below the given heads. -/
def Placed (above : List Head) : Term → Prop
  -- binders bind a variable below any number of `QUOTE` and `CURSOR`
  | .lambda p _ | .letrec p _ _ => GroupedPattern p
  -- lines stand at the root, or below a chain of `CURSOR` from the root on
  | .define _ _ | .assert _ => ∀ a ∈ above, a = .unary .cursor
  -- spines stand nowhere
  | .stack _ _ => False
  | _ => True

/-- Each part of the term may stand where it stands. -/
def Groupable (t : Term) : Prop := ∀ q ∈ t.parts, q.2.Placed q.1

/-- Each part of the term, which stands below the given heads, may stand where it stands. -/
def PlacedBelow (above : List Head) (t : Term) : Prop := ∀ q ∈ t.partsBelow above, q.2.Placed q.1

theorem mem_partsBelow_self (above : List Head) (t : Term) : (above, t) ∈ t.partsBelow above := by
  cases t <;> exact List.mem_cons_self

theorem placedBelow_unary :
    (Term.unary c x).PlacedBelow above ↔ (Term.unary c x).Placed above ∧ x.PlacedBelow (.unary c :: above) :=
  List.forall_mem_cons

theorem placedBelow_binary : (Term.binary b x y).PlacedBelow above ↔
    (Term.binary b x y).Placed above ∧ x.PlacedBelow (.binary b :: above) ∧ y.PlacedBelow (.binary b :: above) :=
  List.forall_mem_cons.trans (and_congr_right' List.forall_mem_append)

theorem placedBelow_lambda : (Term.lambda p e).PlacedBelow above ↔
    GroupedPattern p ∧ p.PlacedBelow (.lambda :: above) ∧ e.PlacedBelow (.lambda :: above) :=
  List.forall_mem_cons.trans (and_congr_right' List.forall_mem_append)

theorem placedBelow_letrec : (Term.letrec p d e).PlacedBelow above ↔
    GroupedPattern p ∧ p.PlacedBelow (.letrec :: above) ∧ d.PlacedBelow (.letrec :: above) ∧
      e.PlacedBelow (.letrec :: above) :=
  List.forall_mem_cons.trans (and_congr_right'
    (List.forall_mem_append.trans (and_congr_right' List.forall_mem_append)))

/-- In what a binder binds, all is in its place. -/
theorem GroupedPattern.placedBelow (h : GroupedPattern p) (above : List Head) : p.PlacedBelow above := by
  induction h generalizing above with
  | var n => exact List.forall_mem_singleton.2 trivial
  | quote _ ih | cursor _ ih => exact placedBelow_unary.2 ⟨trivial, ih _⟩

/-! ### Outcomes -/

/-- The error is that one of the parts has no rule. -/
def Blames (qs : List (List Head × Term)) (e : Error) : Prop := ∃ table, ∃ q ∈ qs, e = .unmatched table q.2

theorem Blames.mono {qs rs : List (List Head × Term)} {err : Error} (h : Blames qs err) (hsub : qs ⊆ rs) :
    Blames rs err := by
  obtain ⟨table, q, hq, rfl⟩ := h
  exact ⟨table, q, hsub hq, rfl⟩

theorem blames_self (table : String) (above : List Head) (t : Term) :
    Blames (t.partsBelow above) (.unmatched table t) :=
  ⟨table, _, mem_partsBelow_self above t, rfl⟩

/-- A pattern that cannot be grouped has a part without a rule. -/
theorem blames_groupPattern (above : List Head) (p : Term) :
    Outcome (fun _ => True) (Blames (p.partsBelow above)) p.groupPattern := by
  induction p generalizing above with
  | var n => trivial
  | unary c x ih =>
    cases c with
    | quote | cursor =>
      exact (Outcome.mono (ih _) (fun _ => id) fun _ he => he.mono (List.subset_cons_self _ _)).bind fun _ => id
    | paren | assert => exact blames_self _ above _
  | name _ | const _ | binary _ _ _ | lambda _ _ | letrec _ _ _ => exact blames_self _ above _

/-- Not all of the term is in its place, and the error names a part of it. -/
def Refused (above : List Head) (t : Term) (err : Error) : Prop :=
  ¬t.PlacedBelow above ∧ Blames (t.partsBelow above) err

theorem Refused.ofPart {err : Error} (h : x.Refused above' err) (hx : x.partsBelow above' ⊆ t.partsBelow above) :
    t.Refused above err :=
  ⟨fun ht => h.1 fun q hq => ht q (hx hq), h.2.mono hx⟩

theorem refused_self (table : String) (h : ¬t.Placed above) : t.Refused above (.unmatched table t) :=
  ⟨fun ht => h (ht _ (mem_partsBelow_self above t)), blames_self table above t⟩

/-- The computation succeeds if all of the term is in its place, and refuses it otherwise. -/
def Decides (above : List Head) (t : Term) (r : Except Error Term) : Prop :=
  Outcome (fun _ => t.PlacedBelow above) (t.Refused above) r

namespace Decides

variable {r r' : Except Error Term}

theorem ofPart (h : Decides above' x r) (hx : x.partsBelow above' ⊆ t.partsBelow above) :
    Outcome (fun _ => x.PlacedBelow above') (t.Refused above) r :=
  Outcome.mono h (fun _ => id) fun _ he => he.ofPart hx

theorem unary (hx : Decides (.unary c :: above) x r) (ht : (Term.unary c x).Placed above) (k : Term → Term) :
    Decides above (.unary c x) (do return k (← r)) :=
  (hx.ofPart (List.subset_cons_self _ _)).bind fun _ hx => placedBelow_unary.2 ⟨ht, hx⟩

theorem binary (hx : Decides (.binary b :: above) x r) (hy : Decides (.binary b :: above) y r')
    (ht : (Term.binary b x y).Placed above) (k : Term → Term → Term) :
    Decides above (.binary b x y) (do return k (← r) (← r')) :=
  (hx.ofPart (List.subset_cons_of_subset _ (List.subset_append_left _ _))).bind fun _ hx =>
    (hy.ofPart (List.subset_cons_of_subset _ (List.subset_append_right _ _))).bind fun _ hy =>
      placedBelow_binary.2 ⟨ht, hx, hy⟩

/-- A binder is in its place if its pattern can be grouped. -/
theorem pattern (hp : p.partsBelow above' ⊆ t.partsBelow above) (ht : t.Placed above → GroupedPattern p) :
    Outcome (fun _ => GroupedPattern p) (t.Refused above) p.groupPattern := by
  refine .of_cases (fun q hq => (grouped_of_groupPattern hq).1) fun err herr => ⟨fun hall => ?_, ?_⟩
  · have hpat := ht (hall _ (mem_partsBelow_self above t))
    rw [groupPattern_of_grouped hpat] at herr
    cases herr
  · have hblames := blames_groupPattern above' p
    rw [herr] at hblames
    exact Blames.mono hblames hp

theorem lambda (he : Decides (.lambda :: above) e r) (k : Term → Term → Term) :
    Decides above (.lambda p e) (do return k (← p.groupPattern) (← r)) :=
  (pattern (List.subset_cons_of_subset _ (List.subset_append_left _ _)) id).bind fun _ hp =>
    (he.ofPart (List.subset_cons_of_subset _ (List.subset_append_right _ _))).bind fun _ he =>
      placedBelow_lambda.2 ⟨hp, hp.placedBelow _, he⟩

theorem letrec (hd : Decides (.letrec :: above) d r) (he : Decides (.letrec :: above) e r')
    (k : Term → Term → Term → Term) :
    Decides above (.letrec p d e) (do return k (← p.groupPattern) (← r) (← r')) := by
  have hsub {qs : List (List Head × Term)}
      (h : qs ⊆ d.partsBelow (.letrec :: above) ++ e.partsBelow (.letrec :: above)) :
      qs ⊆ (Term.letrec p d e).partsBelow above :=
    List.subset_cons_of_subset _ (List.subset_append_of_subset_right _ h)
  exact (pattern (List.subset_cons_of_subset _ (List.subset_append_left _ _)) id).bind fun _ hp =>
    (hd.ofPart (hsub (List.subset_append_left _ _))).bind fun _ hd =>
      (he.ofPart (hsub (List.subset_append_right _ _))).bind fun _ he =>
        placedBelow_letrec.2 ⟨hp, hp.placedBelow _, hd, he⟩

end Decides

/-! ### Grouping -/

/-- Whether the term is a line, or might turn out to be one. -/
def opensLine : Term → Bool
  | .define _ _ | .assert _ | .cursor _ => true
  | _ => false

/-- Some of the heads is not a `CURSOR`, so no line may stand below them. -/
def Inner (above : List Head) : Prop := ∃ a ∈ above, a ≠ .unary .cursor

theorem inner_cons (ha : a ≠ .unary .cursor) (above : List Head) : Inner (a :: above) := ⟨a, List.mem_cons_self, ha⟩

theorem Inner.cons (h : Inner above) (a : Head) : Inner (a :: above) := by
  obtain ⟨b, hb, hne⟩ := h
  exact ⟨b, List.mem_cons_of_mem a hb, hne⟩

theorem Inner.not_line (h : Inner above) : ¬∀ a ∈ above, a = .unary .cursor := by
  obtain ⟨a, ha, hne⟩ := h
  exact fun hall => hne (hall a ha)

/-- **Levels**: at every level, a term that cannot become a line is accepted exactly if all of it is in its place. -/
theorem decides_groupAt (ht : t.WellFormed) (habove : t.opensLine = true → Inner above) (l : Level) :
    Decides above t (t.groupAt l) := by
  induction t generalizing above l with
  | name n => exact ht.elim
  | const o | var n => exact List.forall_mem_singleton.2 trivial
  | unary c x ih =>
    have hx (inner : Inner (.unary c :: above)) (l : Level) : Decides (.unary c :: above) x (x.groupAt l) :=
      ih ht (fun _ => inner) l
    cases c with
    | assert => exact refused_self _ (habove rfl).not_line
    -- `CURSOR` hands on the level, and that no line may come
    | cursor => exact .unary (hx ((habove rfl).cons _) l) trivial _
    | quote | paren => exact .unary (hx (inner_cons (by decide) above) _) trivial _
  | binary b x y ihx ihy =>
    have inner : Inner (.binary b :: above) := inner_cons (by simp) above
    cases b with
    | define => exact refused_self _ (habove rfl).not_line
    | stack => exact refused_self _ id
    | app | comp | join | rand | less | nless | equal =>
      exact .binary (ihx ht.1 (fun _ => inner) _) (ihy ht.2 (fun _ => inner) _) trivial _
  | lambda p e _ ihe => exact .lambda (ihe ht.2 (fun _ => inner_cons (by decide) above) _) _
  | letrec p d e _ ihd ihe =>
    have inner : Inner (.letrec :: above) := inner_cons (by decide) above
    exact .letrec (ihd ht.2.1 (fun _ => inner) _) (ihe ht.2.2 (fun _ => inner) _) _

/-- Below `CURSOR` only, lines are accepted as well. -/
theorem decides_group (ht : t.WellFormed) (habove : ∀ a ∈ above, a = .unary .cursor) : Decides above t t.group := by
  have noLine {t : Term} {above : List Head} (ht : t.WellFormed) (h : t.opensLine = false) :
      Decides above t (t.groupAt .inline) :=
    decides_groupAt ht (fun h' => absurd (h.symm.trans h') Bool.false_ne_true) _
  induction t generalizing above with
  | unary c x ih =>
    cases c with
    | assert =>
      have inner : Inner (.unary .assert :: above) := inner_cons (by decide) above
      have hx : Decides (.unary .assert :: above) x (x.groupAt .join) := decides_groupAt (t := x) ht (fun _ => inner) _
      exact .unary hx habove _
    | cursor => exact .unary (ih ht (List.forall_mem_cons.2 ⟨rfl, habove⟩)) trivial _
    | quote | paren => exact noLine ht rfl
  | binary b x y _ _ =>
    cases b with
    | define =>
      have inner : Inner (.binary .define :: above) := inner_cons (by decide) above
      exact .binary (decides_groupAt ht.1 (fun _ => inner) _) (decides_groupAt ht.2 (fun _ => inner) _) habove _
    | app | comp | join | rand | stack | less | nless | equal => exact noLine ht rfl
  | name _ | const _ | var _ | lambda _ _ | letrec _ _ _ => exact noLine ht rfl

/-! ### Lines -/

/-- What stands above a term stands above its parts. -/
theorem mem_of_mem_partsBelow {q : List Head × Term} (ha : a ∈ above) (hq : q ∈ t.partsBelow above) : a ∈ q.1 := by
  have root {above : List Head} {t : Term} (ha : a ∈ above) (h : q = (above, t)) : a ∈ q.1 := by
    rw [h]
    exact ha
  induction t generalizing above with
  | name _ | const _ | var _ => exact root ha (List.mem_singleton.1 hq)
  | unary c x ih => exact (List.mem_cons.1 hq).elim (root ha) (ih (List.mem_cons_of_mem _ ha))
  | binary b x y ihx ihy =>
    have ha' := List.mem_cons_of_mem (.binary b) ha
    exact (List.mem_cons.1 hq).elim (root ha) fun hq => (List.mem_append.1 hq).elim (ihx ha') (ihy ha')
  | lambda p e ihp ihe =>
    have ha' := List.mem_cons_of_mem .lambda ha
    exact (List.mem_cons.1 hq).elim (root ha) fun hq => (List.mem_append.1 hq).elim (ihp ha') (ihe ha')
  | letrec p d e ihp ihd ihe =>
    have ha' := List.mem_cons_of_mem .letrec ha
    exact (List.mem_cons.1 hq).elim (root ha) fun hq => (List.mem_append.1 hq).elim (ihp ha') fun hq =>
      (List.mem_append.1 hq).elim (ihd ha') (ihe ha')

/-- The head of a term stands above all its parts but the term itself. -/
theorem mem_of_mem_tail_partsBelow {q : List Head × Term} (ha : t.head? = some a)
    (hq : q ∈ (t.partsBelow above).tail) : a ∈ q.1 := by
  have below {x : Term} (hx : q ∈ x.partsBelow (a :: above)) : a ∈ q.1 := mem_of_mem_partsBelow List.mem_cons_self hx
  cases t with
  | name _ | const _ | var _ => cases hq
  | unary c x =>
    cases ha
    exact below hq
  | binary b x y =>
    cases ha
    exact (List.mem_append.1 hq).elim below below
  | lambda p e =>
    cases ha
    exact (List.mem_append.1 hq).elim below below
  | letrec p d e =>
    cases ha
    exact (List.mem_append.1 hq).elim below fun hq => (List.mem_append.1 hq).elim below below

theorem Placed.eq_cursor (h : t.Placed above) (hline : t.isLine = true) : ∀ a ∈ above, a = .unary .cursor := by
  unfold isLine at hline
  split at hline
  · exact h
  · exact h
  · cases hline

/-- Below another head than `CURSOR` there is no line. -/
theorem countP_isLine_le_one_of_head (h : t.PlacedBelow above) (ht : t.head? = some a) (ha : a ≠ .unary .cursor) :
    (t.partsBelow above).countP (·.2.isLine) ≤ 1 := by
  have htail : (t.partsBelow above).tail.countP (·.2.isLine) = 0 := by
    refine List.countP_eq_zero.2 fun q hq hline => ha ?_
    have hplaced := h q (List.mem_of_mem_tail hq)
    exact hplaced.eq_cursor hline a (mem_of_mem_tail_partsBelow ht hq)
  have hcons : t.partsBelow above = (above, t) :: (t.partsBelow above).tail := by cases t <;> rfl
  rw [hcons, List.countP_cons, htail]
  split
  · exact Nat.le_refl 1
  · exact Nat.zero_le 1

theorem countP_isLine_le_one (h : t.PlacedBelow above) : (t.partsBelow above).countP (·.2.isLine) ≤ 1 := by
  induction t generalizing above with
  | name _ | const _ | var _ => exact List.countP_le_length
  | unary c x ih =>
    by_cases hc : c = .cursor
    · subst hc
      rw [partsBelow, List.countP_cons_of_neg Bool.false_ne_true]
      exact ih (placedBelow_unary.1 h).2
    · exact countP_isLine_le_one_of_head h rfl fun h => hc (Head.unary.inj h)
  | binary b x y _ _ => exact countP_isLine_le_one_of_head h rfl (by simp)
  | lambda p e _ _ | letrec p d e _ _ _ => exact countP_isLine_le_one_of_head h rfl (by decide)

/-- **Grouping accepts exactly the terms that have an infix notation**: a well-formed term is grouped if every binder of
it binds a variable below `QUOTE` and `CURSOR`, lines stand only below `CURSOR`, so that there is one at most, and there
is no spine. In every other case grouping fails with a part of the term that no rule matches. -/
theorem group_ok_iff_groupable {t : Term} (ht : t.WellFormed) :
    ((∃ u, t.group = .ok u) ↔ t.Groupable) ∧ (t.Groupable → t.parts.countP (·.2.isLine) ≤ 1) ∧
      (¬t.Groupable → ∃ table, ∃ q ∈ t.parts, t.group = .error (.unmatched table q.2)) := by
  have hdecides : Decides [] t t.group := decides_group ht fun a ha => by cases ha
  refine ⟨⟨?_, fun h => ?_⟩, countP_isLine_le_one, fun h => ?_⟩
  · rintro ⟨u, hu⟩
    exact hdecides.of_ok hu
  · cases hr : t.group with
    | ok u => exact ⟨u, rfl⟩
    | error err =>
      rw [hr] at hdecides
      exact absurd h hdecides.1
  · cases hr : t.group with
    | ok u => exact absurd (hdecides.of_ok hr) h
    | error err =>
      rw [hr] at hdecides
      obtain ⟨table, q, hq, rfl⟩ := hdecides.2
      exact ⟨table, q, hq, rfl⟩

/-- A definition below `CURSOR` is accepted, with a quoted variable bound in it; an assertion as an argument is not. -/
theorem group_ok_iff_groupable_line :
    (cursor (define (.var "f") (.lambda (quote (.var "x")) (.var "x")))).Groupable ∧
      ¬(app (.var "f") (assert (.var "x"))).Groupable := by
  constructor
  · exact (group_ok_iff_groupable (by simp [WellFormed])).1.1 ⟨_, rfl⟩
  · intro h
    obtain ⟨u, hu⟩ := (group_ok_iff_groupable (by simp [WellFormed])).1.2 h
    cases hu

end Combinatory.Term
