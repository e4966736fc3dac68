import Combinatory.Spine
import Mathlib.Tactic.Common

/-!
# Spines and applications

An application and its spine are two views of one term: each can be had from the other. The items of a spine may be any
terms, also cells, ends of spines or applications, and are not taken for parts of the spine.

## The proof

Every term is a head that is no application, applied to arguments (`exists_appAll`), and every term is a chain of cells
that leads to something other than a cell (`exists_stackAll`). Unfolding is said on the first view and folding on the
second: `toStackOnto_appAll` and `applyStack_stackAll` are the runs of the two recursions, which move one argument or
one item at a step.

## What is proved

* `fromStack_stackAll`, `exists_fromStack_error`: what folding gives for a spine, and what it reports for other terms.
* `toStack_appAll_eq_iff`: the spine of an application of `x` starts with `x` unless `x` is an application itself.
* `fromStack_inverse_toStack`: the two views are inverse to each other.
-/

namespace Combinatory.Term

/-- A chain of cells with at least one item that ends with `NIL`. -/
def IsSpine (s : Term) : Prop := ∃ x xs, s = stackAll (x :: xs) (.const .nil)

/-! ### Unfolding -/

theorem toStackOnto_app (x y : Term) (as : List Term) (t : Term) :
    toStackOnto (app x y) as t = toStackOnto x (y :: as) t := rfl

theorem toStackOnto_of_head {h : Term} (hh : ∀ x y, h ≠ app x y) (as : List Term) (t : Term) :
    toStackOnto h as t = stackAll (h :: as) t := by
  rw [toStackOnto]
  · rfl
  · exact hh

theorem exists_appAll (t : Term) : ∃ h as, (∀ x y, h ≠ app x y) ∧ t = appAll h as := by
  induction t with
  | binary b x y ihx _ =>
    by_cases hb : b = .app
    · subst hb
      obtain ⟨h, as, hh, rfl⟩ := ihx
      exact ⟨h, as ++ [y], hh, (appAll_append h as [y]).symm⟩
    · refine ⟨.binary b x y, [], ?_, rfl⟩
      rintro _ _ ⟨⟩
      exact hb rfl
  | name _ | const _ | var _ | unary _ _ | lambda _ _ | letrec _ _ _ => exact ⟨_, [], by rintro _ _ ⟨⟩, rfl⟩

/-- The arguments of an application are put in front of the others, one by one from the last. -/
theorem toStackOnto_appAll (h : Term) (as bs : List Term) (t : Term) :
    toStackOnto (appAll h as) bs t = toStackOnto h (as ++ bs) t := by
  induction as generalizing h with
  | nil => rfl
  | cons a as ih => rw [appAll_cons, ih, toStackOnto_app, List.cons_append]

/-- The spine of an application is the head with all arguments. -/
theorem toStackOnto_appAll_of_head {h : Term} (hh : ∀ x y, h ≠ app x y) (as bs ts : List Term) (t : Term) :
    toStackOnto (appAll h as) bs (stackAll ts t) = stackAll (h :: (as ++ (bs ++ ts))) t := by
  rw [toStackOnto_appAll, toStackOnto_of_head hh, ← List.append_assoc]
  exact (List.foldr_append (l := h :: (as ++ bs))).symm

/-- It makes no difference whether arguments wait in the spine or beside it. -/
theorem toStackOnto_stackAll (h : Term) (as bs : List Term) (t : Term) :
    toStackOnto h as (stackAll bs t) = toStackOnto h (as ++ bs) t := by
  obtain ⟨k, cs, hk, rfl⟩ := exists_appAll h
  rw [toStackOnto_appAll_of_head hk, toStackOnto_appAll, toStackOnto_of_head hk]

/-! ### Folding -/

theorem exists_stackAll (s : Term) : ∃ xs r, (∀ y u, r ≠ stack y u) ∧ s = stackAll xs r := by
  induction s with
  | binary b x y _ ihy =>
    by_cases hb : b = .stack
    · subst hb
      obtain ⟨xs, r, hr, rfl⟩ := ihy
      exact ⟨x :: xs, r, hr, rfl⟩
    · refine ⟨[], .binary b x y, ?_, rfl⟩
      rintro _ _ ⟨⟩
      exact hb rfl
  | name _ | const _ | var _ | unary _ _ | lambda _ _ | letrec _ _ _ => exact ⟨[], _, by rintro _ _ ⟨⟩, rfl⟩

/-- The items of a chain become arguments, one by one. -/
theorem applyStack_stackAll (x : Term) (xs : List Term) (r : Term) :
    applyStack x (stackAll xs r) = applyStack (appAll x xs) r := by
  induction xs generalizing x with
  | nil => rfl
  | cons y ys ih => exact ih (app x y)

theorem applyStack_of_end {r : Term} (hr : ∀ y u, r ≠ stack y u) (hnil : r ≠ .const .nil) (x : Term) :
    applyStack x r = .error (.unmatched "from_stack" (stack x r)) := by
  rw [applyStack]
  · exact hnil
  · exact hr

/-- A spine stands for the application of its first item to the others. -/
theorem fromStack_stackAll (x : Term) (xs : List Term) :
    fromStack (stackAll (x :: xs) (.const .nil)) = .ok (appAll x xs) :=
  applyStack_stackAll x xs (.const .nil)

/-- What is no spine is reported, with the items that come first folded. -/
theorem exists_fromStack_error {s : Term} (hs : ¬IsSpine s) :
    ∃ u, fromStack s = .error (.unmatched "from_stack" u) := by
  obtain ⟨xs, r, hr, rfl⟩ := exists_stackAll s
  cases xs with
  | nil =>
    refine ⟨r, ?_⟩
    rw [stackAll_nil, fromStack]
    exact hr
  | cons x xs =>
    have hnil : r ≠ .const .nil := by
      rintro rfl
      exact hs ⟨x, xs, rfl⟩
    refine ⟨stack (appAll x xs) r, ?_⟩
    rw [stackAll_cons, fromStack, applyStack_stackAll, applyStack_of_end hr hnil]

theorem exists_fromStack_iff {s : Term} : (∃ t, fromStack s = .ok t) ↔ IsSpine s := by
  constructor
  · rintro ⟨t, ht⟩
    by_contra hs
    obtain ⟨u, hu⟩ := exists_fromStack_error hs
    rw [hu] at ht
    cases ht
  · rintro ⟨x, xs, rfl⟩
    exact ⟨_, fromStack_stackAll x xs⟩

/-! ### Round trips -/

theorem fromStack_toStackOnto (h : Term) (as ts : List Term) :
    fromStack (toStackOnto h as (stackAll ts (.const .nil))) = .ok (appAll h (as ++ ts)) := by
  obtain ⟨k, bs, hk, rfl⟩ := exists_appAll h
  rw [toStackOnto_appAll_of_head hk, fromStack_stackAll, appAll_append k bs]

/-- The spine of an application of `x` has `x` as its first item, unless `x` is an application that is unfolded too. -/
theorem toStack_appAll_eq_iff {x : Term} {xs : List Term} :
    toStack (appAll x xs) = stackAll (x :: xs) (.const .nil) ↔ ∀ a b, x ≠ app a b := by
  constructor
  · intro heq
    obtain ⟨h, as, hh, rfl⟩ := exists_appAll x
    have hspine := toStackOnto_appAll_of_head hh (as ++ xs) [] [] (.const .nil)
    rw [appAll_append] at hspine
    -- both spines have their first item in their first cell
    have hcells : stack h _ = stack (appAll h as) _ := hspine.symm.trans heq
    injection hcells with _ hfirst _
    exact hfirst ▸ hh
  · intro hx
    have hspine := toStackOnto_appAll_of_head hx xs [] [] (.const .nil)
    rwa [List.append_nil, List.append_nil] at hspine

/-- **Spines and applications are inverse views**: folding takes back unfolding, with the arguments that were put in
between; it succeeds on spines and on nothing else, and reports what is no spine. Unfolding takes back folding of a
spine whose first item is not an application itself, and of no other. -/
theorem fromStack_inverse_toStack :
    (∀ h as ts, fromStack (toStackOnto h as (stackAll ts (.const .nil))) = .ok (appAll h (as ++ ts))) ∧
      (∀ t, fromStack (toStack t) = .ok t) ∧
      (∀ s, (∃ t, fromStack s = .ok t) ↔ IsSpine s) ∧
      (∀ s, (∃ u, fromStack s = .error (.unmatched "from_stack" u)) ↔ ¬IsSpine s) ∧
      ∀ x xs, toStack <$> fromStack (stackAll (x :: xs) (.const .nil)) = .ok (stackAll (x :: xs) (.const .nil)) ↔
        ∀ a b, x ≠ app a b := by
  refine ⟨fromStack_toStackOnto, ?_, fun s => exists_fromStack_iff, ?_, ?_⟩
  · intro t
    exact fromStack_toStackOnto t [] []
  · intro s
    refine ⟨?_, exists_fromStack_error⟩
    rintro ⟨u, hu⟩ hs
    obtain ⟨t, ht⟩ := exists_fromStack_iff.2 hs
    rw [hu] at ht
    cases ht
  · intro x xs
    rw [fromStack_stackAll]
    exact (iff_of_eq (Except.ok.injEq _ _)).trans toStack_appAll_eq_iff

end Combinatory.Term
