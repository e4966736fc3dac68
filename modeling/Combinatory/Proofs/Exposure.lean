import Combinatory.Proofs.BracketAbstraction

/-!
# Exposed variables

From which terms a variable can be drawn out: from those in which each free occurrence of it is reached from the root
through heads that abstraction goes through, and from no others.

## The model

`Term.routes v t` lists the free occurrences of `v` in `t` from left to right, each by the heads that stand above it.
A variable is `Term.Exposed` in a term if all heads on its routes are transparent (`Head.transparent`). Binders are not
transparent: a variable is drawn out of code only, where they have been compiled away. This is where an exposed variable
differs from one that is `Term.Drawable`.

## What is proved

* `length_routes`: there are as many routes as free occurrences are counted.
* `exists_bracket_iff`: abstraction fails exactly if the variable is not exposed.
* `bracket_trichotomy`: what abstraction gives, for every term and variable: nothing if the variable does not occur,
  code without the variable if it is exposed, and an error that names a part it cannot be drawn out of in all other
  cases.
-/

namespace Combinatory.Term

variable {v : String} {t u x y : Term}

/-! ### Routes -/

/-- The free occurrences of the variable, from left to right. Each is given by the heads above it, from the root on. -/
def routes (v : String) : Term → List (List Head)
  | .name _ | .const _ => []
  | .var n => if n = v then [[]] else []
  | .unary u x => (x.routes v).map (.unary u :: ·)
  | .binary b x y => (x.routes v ++ y.routes v).map (.binary b :: ·)
  | .lambda p e => if v ∈ p.payloads then [] else (e.routes v).map (.lambda :: ·)
  | .letrec p d e => if v ∈ p.payloads then [] else (d.routes v ++ e.routes v).map (.letrec :: ·)

theorem length_routes (v : String) (t : Term) : (t.routes v).length = t.count v := by
  induction t with
  | name _ | const _ => rfl
  | var n =>
    rw [routes, count]
    split <;> rfl
  | unary _ _ ih => rw [routes, List.length_map, ih, count]
  | binary _ _ _ ihx ihy => rw [routes, List.length_map, List.length_append, ihx, ihy, count]
  | lambda p e _ ihe =>
    rw [routes, count]
    split
    · rfl
    · next hp => rw [List.length_map, ihe, count_eq_zero_of_not_mem hp, Nat.zero_add]
  | letrec p d e _ ihd ihe =>
    rw [routes, count]
    split
    · rfl
    · next hp => rw [List.length_map, List.length_append, ihd, ihe, count_eq_zero_of_not_mem hp, Nat.zero_add]

theorem routes_eq_nil_iff : t.routes v = [] ↔ v ∉ t.freeOccurrences := by
  rw [← List.length_eq_zero_iff, length_routes, count_eq_zero_iff]

/-- The head of a term other than a variable comes first on each route. -/
theorem head?_of_mem_routes {r : List Head} (hr : r ∈ t.routes v) (ht : t.isVar = false) :
    ∃ a s, r = a :: s ∧ t.head? = some a := by
  cases t with
  | name _ | const _ => cases hr
  | var n => cases ht
  | unary _ _ | binary _ _ _ =>
    obtain ⟨s, -, rfl⟩ := List.mem_map.1 hr
    exact ⟨_, s, rfl, rfl⟩
  | lambda _ _ | letrec _ _ _ =>
    -- a binder of the same name hides all that is below it
    rw [routes] at hr
    split at hr
    · cases hr
    · obtain ⟨s, -, rfl⟩ := List.mem_map.1 hr
      exact ⟨_, s, rfl, rfl⟩

/-! ### Exposed variables -/

/-- Every free occurrence of the variable is reached from the root through transparent heads only. -/
def Exposed (v : String) (t : Term) : Prop := ∀ r ∈ t.routes v, ∀ a ∈ r, a ∈ Head.transparent

instance : Decidable (t.Exposed v) := inferInstanceAs (Decidable (∀ r ∈ t.routes v, ∀ a ∈ r, a ∈ Head.transparent))

theorem exposed_of_not_mem (h : v ∉ t.freeOccurrences) : t.Exposed v := by
  intro r hr
  rw [routes_eq_nil_iff.2 h] at hr
  cases hr

theorem exposed_var (n : String) : (Term.var n).Exposed v := by
  intro r hr a ha
  rw [routes] at hr
  split at hr
  · obtain rfl := List.mem_singleton.1 hr
    cases ha
  · cases hr

theorem exposed_transparent {b : Binary} (hb : Head.binary b ∈ Head.transparent) :
    (Term.binary b x y).Exposed v ↔ x.Exposed v ∧ y.Exposed v := by
  simp only [Exposed, routes, List.forall_mem_map, List.forall_mem_cons, List.forall_mem_append, hb, true_and]

/-- A sealed term exposes only the variables that it does not have. -/
theorem exposed_sealed (ht : t.Sealed) : t.Exposed v ↔ v ∉ t.freeOccurrences := by
  constructor
  · intro h hv
    obtain ⟨r, hr⟩ := List.exists_mem_of_ne_nil _ (mt routes_eq_nil_iff.1 (not_not_intro hv))
    have hvar : t.isVar = false := by
      cases t with
      | var n => exact absurd rfl (ht .var rfl).1
      | name _ | const _ | unary _ _ | binary _ _ _ | lambda _ _ | letrec _ _ _ => rfl
    obtain ⟨a, s, rfl, ha⟩ := head?_of_mem_routes hr hvar
    exact (ht a ha).2 (h _ hr a List.mem_cons_self)
  · exact exposed_of_not_mem

/-- **Abstraction fails exactly if the variable is not exposed.** -/
theorem exists_bracket_iff : (∃ r, t.bracket v = .ok r) ↔ t.Exposed v := by
  induction t using transparentInduction with
  | var n => exact ⟨fun _ => exposed_var n, fun _ => ⟨_, rfl⟩⟩
  | transparent b x y hb ihx ihy => rw [exists_bracket_transparent hb, exposed_transparent hb, ihx, ihy]
  | sealed t ht => simp [bracket_of_sealed ht, bracketOther_eq_ok_iff, exposed_sealed ht]

/-! ### What abstraction gives -/

/-- The names of well-formed code are its free variables. -/
theorem mem_freeOccurrences_of_binderFree {n : String} (hw : t.WellFormed) (hb : t.BinderFree) (hn : n ∈ t.payloads) :
    n ∈ t.freeOccurrences := by
  induction t with
  | name _ => exact hw.elim
  | const _ => cases hn
  | var _ => exact hn
  | unary _ _ ih => exact ih hw hb hn
  | binary _ _ _ ihx ihy =>
    rw [mem_freeOccurrences_binary]
    exact (List.mem_append.1 hn).imp (ihx hw.1 hb.1) (ihy hw.2 hb.2)
  | lambda _ _ | letrec _ _ _ => exact hb.elim

theorem Abstracts.wellFormed (h : Abstracts v t u) (ht : t.WellFormed) : u.WellFormed :=
  h.keeps (H := fun _ => True) (fun _ => trivial) trivial trivial (by simp [WellFormed]) ht

/-- The variable is gone from the code that it is drawn out of. -/
theorem Abstracts.not_mem_payloads (h : Abstracts v t u) (hw : t.WellFormed) (hb : t.BinderFree) : v ∉ u.payloads :=
  fun hv => h.not_mem (mem_freeOccurrences_of_binderFree (h.wellFormed hw) (h.binderFree hb) hv)

/-- The abstraction has the other free variables of the term. -/
theorem Abstracts.freeNames_eq (h : Abstracts v t u) : u.freeNames = t.freeNames.filter (· ≠ v) := by
  refine eq_of_mem_iff (pairwise_nameSet _) ((pairwise_nameSet _).filter _) fun n => ?_
  have hcount := h.count n
  rw [mem_freeNames, List.mem_filter, mem_freeNames, decide_eq_true_iff, ← not_iff_not, ← count_eq_zero_iff, hcount]
  by_cases hn : n = v
  · simp [hn]
  · simp [hn, count_eq_zero_iff]

theorem bracket_eq_none_iff : t.bracket v = .ok none ↔ t.count v = 0 := by
  rw [count_eq_zero_iff]
  exact bracket_eq_ok_iff

theorem exists_bracket_some_iff : (∃ u, t.bracket v = .ok (some u)) ↔ t.count v ≠ 0 ∧ t.Exposed v := by
  constructor
  · rintro ⟨u, hu⟩
    refine ⟨?_, exists_bracket_iff.1 ⟨_, hu⟩⟩
    intro h
    rw [bracket_eq_none_iff.2 h] at hu
    cases hu
  · rintro ⟨hc, he⟩
    obtain ⟨_ | u, hr⟩ := exists_bracket_iff.2 he
    · exact absurd (bracket_eq_none_iff.1 hr) hc
    · exact ⟨u, hr⟩

theorem exists_bracket_error_iff :
    (∃ s, t.bracket v = .error (.notImplemented (.abstraction v s)) ∧ s.Sealed ∧ v ∈ s.freeNames) ↔
      t.count v ≠ 0 ∧ ¬t.Exposed v := by
  constructor
  · rintro ⟨s, hs, -⟩
    have he : ¬t.Exposed v := by
      intro he
      obtain ⟨r, hr⟩ := exists_bracket_iff.2 he
      rw [hs] at hr
      cases hr
    exact ⟨fun h => he (exposed_of_not_mem (count_eq_zero_iff.1 h)), he⟩
  · rintro ⟨-, he⟩
    cases h : t.bracket v with
    | ok r => exact absurd (exists_bracket_iff.1 ⟨r, h⟩) he
    | error err =>
      obtain ⟨s, rfl, hs, hv⟩ := sealed_of_bracket h
      exact ⟨s, rfl, hs, mem_freeNames.2 hv⟩

/-- **What abstraction gives**: nothing exactly if the variable does not occur, and code exactly if it occurs and is
exposed. The code has the other free variables of the term, and does not have the variable at all if the term has no
binders. In all other cases, and in no others, a part of the term is reported that the variable occurs in and cannot be
drawn out of. -/
theorem bracket_trichotomy (ht : t.WellFormed) (v : String) :
    (t.bracket v = .ok none ↔ t.count v = 0) ∧
      ((∃ u, t.bracket v = .ok (some u)) ↔ t.count v ≠ 0 ∧ t.Exposed v) ∧
      (∀ u, t.bracket v = .ok (some u) →
        (t.BinderFree → v ∉ u.names) ∧ u.freeNames = t.freeNames.filter (· ≠ v)) ∧
      ((∃ s, t.bracket v = .error (.notImplemented (.abstraction v s)) ∧ s.Sealed ∧ v ∈ s.freeNames) ↔
        t.count v ≠ 0 ∧ ¬t.Exposed v) := by
  refine ⟨bracket_eq_none_iff, exists_bracket_some_iff, ?_, exists_bracket_error_iff⟩
  intro u hu
  have h : Abstracts v t u := bracket_eq_ok_iff.1 hu
  refine ⟨?_, h.freeNames_eq⟩
  intro hb
  rw [mem_names]
  exact h.not_mem_payloads ht hb

/-- In `(JOIN (QUOTE x) v) (LAMBDA v. v)` the variable `v` is exposed, since the binder of the same name hides its own.
In `COMP v (QUOTE v)` it is not. -/
theorem bracket_trichotomy_shadowing :
    (∃ u, (app (join (.quote (.var "x")) (.var "v")) (.lambda (.var "v") (.var "v"))).bracket "v" = .ok (some u) ∧
        u.freeNames = ["x"]) ∧
      ∃ s, (comp (.var "v") (.quote (.var "v"))).bracket "v" = .error (.notImplemented (.abstraction "v" s)) ∧
        s.Sealed ∧ "v" ∈ s.freeNames := by
  constructor
  · obtain ⟨-, hsome, hfree, -⟩ := bracket_trichotomy
      (t := app (join (.quote (.var "x")) (.var "v")) (.lambda (.var "v") (.var "v"))) (by simp [WellFormed]) "v"
    obtain ⟨u, hu⟩ := hsome.2 (by decide)
    exact ⟨u, hu, (hfree u hu).2⟩
  · obtain ⟨-, -, -, herror⟩ := bracket_trichotomy (t := comp (.var "v") (.quote (.var "v"))) (by simp [WellFormed]) "v"
    exact herror.2 (by decide)

end Combinatory.Term
