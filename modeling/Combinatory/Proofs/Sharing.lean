import Combinatory.Proofs.CombinatorElimination
import Combinatory.Proofs.DecompilationSteps
import Combinatory.Proofs.NormalizationSteps

/-!
# Sharing in decompilation

Decompilation makes no copies but of variables: an argument that a combinator uses twice is shared by a definition. So a
head that decompilation does not put into terms itself stands no more often in decompiled code than in the code, however
the arguments are passed on from one expansion to the next.

## The model

`Term.tally` adds up what the heads of a term weigh. The head `a` in question weighs 1 in terms that have been
decompiled (`Head.mark`); in code it weighs 1 only if decompilation leaves it where it stands (`Head.survivingMark`),
since the combinators and `COMP` are used up. `Task.allowance` is what a task has of it.

## What is proved

* `yields_decompilePlan`: no row of the table of decompilation gives more of the head than its task allows, if its calls
  do not. This is where it matters which arguments `W` and `S` copy, since a variable weighs nothing.
* `count_heads_simplify_le`: simplification gives no more of any head.
* `count_heads_decompile_le`: so decompilation does not, from any supply of names, before simplification and after it.
-/

namespace Combinatory

/-! ### Counting nodes -/

namespace Head

/-- Counts the head `a`. -/
def mark (a b : Head) : Nat := if b = a then 1 else 0

/-- Counts the head `a` if decompilation leaves it where it stands. -/
def survivingMark (a b : Head) : Nat := if b.Survives then a.mark b else 0

theorem mark_eq_zero {a b : Head} (ha : a ∉ created) (hb : b ∈ created) : a.mark b = 0 := by
  refine if_neg ?_
  rintro rfl
  exact ha hb

theorem survivingMark_le (a b : Head) : a.survivingMark b ≤ a.mark b := by
  rw [survivingMark]
  split
  · exact Nat.le_refl _
  · exact Nat.zero_le _

end Head

namespace Term

open Plan

variable {a : Head}

/-- Adds up what the heads of a term weigh. -/
@[simp] def tally (w : Head → Nat) : Term → Nat
  | .name _ => 0
  | .const o => w (.const o)
  | .var _ => w .var
  | .unary u x => w (.unary u) + x.tally w
  | .binary b x y => w (.binary b) + (x.tally w + y.tally w)
  | .lambda p e => w .lambda + (p.tally w + e.tally w)
  | .letrec p d e => w .letrec + (p.tally w + (d.tally w + e.tally w))

/-- Adds up what the heads of several terms weigh. -/
@[simp] def argsTally (w : Head → Nat) : List Term → Nat
  | [] => 0
  | t :: ts => t.tally w + argsTally w ts

theorem tally_mark (a : Head) (t : Term) : t.tally a.mark = t.heads.count a := by
  have hcons (b : Head) (l : List Head) : (b :: l).count a = a.mark b + l.count a := by
    rw [List.count_cons, Head.mark, Nat.add_comm]
    simp only [beq_iff_eq]
  induction t with
  | name n => rfl
  | const o | var n => simp [heads, hcons]
  | unary u x ih => simp [heads, hcons, ih]
  | binary b x y ihx ihy => simp [heads, hcons, ihx, ihy]
  | lambda p e ihp ihe => simp [heads, hcons, ihp, ihe]
  | letrec p d e ihp ihd ihe => simp [heads, hcons, ihp, ihd, ihe]

theorem tally_mono {v w : Head → Nat} (h : ∀ b, v b ≤ w b) (t : Term) : t.tally v ≤ t.tally w := by
  induction t with
  | name n => exact Nat.le_refl _
  | const o | var n => exact h _
  | unary u x ih => exact Nat.add_le_add (h _) ih
  | binary b x y ihx ihy => exact Nat.add_le_add (h _) (Nat.add_le_add ihx ihy)
  | lambda p e ihp ihe => exact Nat.add_le_add (h _) (Nat.add_le_add ihp ihe)
  | letrec p d e ihp ihd ihe => exact Nat.add_le_add (h _) (Nat.add_le_add ihp (Nat.add_le_add ihd ihe))

/-! ### What the rows give -/

/-- How much of the head `a` a task has. -/
@[simp] def Task.allowance (a : Head) : Task → Nat
  | .spine h as => h.tally a.survivingMark + argsTally a.survivingMark as
  | .onto t as => t.tally a.mark + argsTally a.survivingMark as

/-- The term has no more of the head `a` than the task. -/
def Spares (a : Head) (i : Task) (t : Term) : Prop := t.tally a.mark ≤ i.allowance a

section Rows

variable (ha : a ∉ Head.created)

include ha

theorem yields_operatorPlan {b : Binary} (hb : .binary b ∈ Head.created) (o : Const) (as : List Term) :
    (operatorPlan b as).Yields (Spares a) (Spares a (.spine (.const o) as)) := by
  have hcreated {b : Head} : b ∈ Head.created → a.mark b = 0 := Head.mark_eq_zero ha
  unfold operatorPlan
  split <;> simp [Spares, hcreated hb, hcreated (b := .var) (by decide), hcreated (b := .lambda) (by decide)] <;> omega

theorem yields_comparisonPlan {b : Binary} (hb : .binary b ∈ Head.created) (o : Const) (as : List Term) :
    (comparisonPlan b as).Yields (Spares a) (Spares a (.spine (.const o) as)) := by
  have hcreated {b : Head} : b ∈ Head.created → a.mark b = 0 := Head.mark_eq_zero ha
  unfold comparisonPlan
  split <;> simp [Spares, hcreated hb, hcreated (b := .var) (by decide), hcreated (b := .lambda) (by decide),
    hcreated (b := .letrec) (by decide), hcreated (b := .unary .quote) (by decide)] <;> omega

theorem yields_spinePlan (h : Term) (as : List Term) :
    (spinePlan h as).Yields (Spares a) (Spares a (.spine h as)) := by
  have hcreated : ∀ b ∈ Head.created, a.mark b = 0 := fun b => Head.mark_eq_zero ha
  simp only [Head.created, List.forall_mem_cons] at hcreated
  have hjoin := yields_operatorPlan ha (b := .join) (by decide)
  have hrand := yields_operatorPlan ha (b := .rand) (by decide)
  have hless := yields_comparisonPlan ha (b := .less) (by decide)
  have hnless := yields_comparisonPlan ha (b := .nless) (by decide)
  have hequal := yields_comparisonPlan ha (b := .equal) (by decide)
  unfold spinePlan
  -- The rows that share an argument are the tight ones: `W` and `S` call for the argument once and for its name twice.
  split <;> simp [Spares, Head.survivingMark, Head.Survives, fixpoint, reversedApplication, reversedComposition,
    closure, reflexiveClosure, closureOfJoin, compAll, *] <;> grind

theorem yields_ontoPlan (t : Term) (as : List Term) : (ontoPlan t as).Yields (Spares a) (Spares a (.onto t as)) := by
  unfold ontoPlan
  split <;> simp [Spares, Head.mark_eq_zero ha (b := .binary .app) (by decide)]
  omega

theorem yields_decompilePlan (i : Task) : (decompilePlan i).Yields (Spares a) (Spares a i) := by
  cases i with
  | spine h as => exact yields_spinePlan ha h as
  | onto t as => exact yields_ontoPlan ha t as

/-- **Decompilation spares** what it does not create: no more of it is in the result than in the code. -/
theorem count_heads_decompileWith_le {c t : Term} {s : NameSupply} (h : (c.decompileWith.runWith s).1 = .ok t) :
    t.heads.count a ≤ c.heads.count a := by
  have hspares : Spares a (.spine c []) t := obeys_decompileTask.yields (yields_decompilePlan ha) h
  calc t.heads.count a = t.tally a.mark := (tally_mark a t).symm
    _ ≤ c.tally a.survivingMark := hspares
    _ ≤ c.tally a.mark := tally_mono a.survivingMark_le c
    _ = c.heads.count a := tally_mark a c

end Rows

/-! ### Simplification -/

theorem heads_canonicalPattern {p q : Term} {bound bound' : Scope} {s s' : NameSupply}
    (h : (p.canonicalPattern bound).runWith s = (.ok (q, bound'), s')) : q.heads = p.heads := by
  induction p generalizing q bound bound' s s' with
  | name n | const o =>
    cases h
    rfl
  | var n =>
    rw [canonicalPattern] at h
    split at h <;> cases h
    rfl
  | unary u x ih =>
    obtain ⟨⟨x', _⟩, _, hx, hr⟩ := Fresh.runWith_bind_eq_ok.1 h
    cases hr
    rw [heads, heads, ih hx]
  | binary b x y ihx ihy =>
    obtain ⟨⟨x', _⟩, _, hx, hr⟩ := Fresh.runWith_bind_eq_ok.1 h
    obtain ⟨⟨y', _⟩, _, hy, hr⟩ := Fresh.runWith_bind_eq_ok.1 hr
    cases hr
    rw [heads, heads, ihx hx, ihy hy]
  | lambda x y ihx ihy =>
    obtain ⟨⟨x', _⟩, _, hx, hr⟩ := Fresh.runWith_bind_eq_ok.1 h
    obtain ⟨⟨y', _⟩, _, hy, hr⟩ := Fresh.runWith_bind_eq_ok.1 hr
    cases hr
    rw [heads, heads, ihx hx, ihy hy]
  | letrec x y z ihx ihy ihz =>
    obtain ⟨⟨x', _⟩, _, hx, hr⟩ := Fresh.runWith_bind_eq_ok.1 h
    obtain ⟨⟨y', _⟩, _, hy, hr⟩ := Fresh.runWith_bind_eq_ok.1 hr
    obtain ⟨⟨z', _⟩, _, hz, hr⟩ := Fresh.runWith_bind_eq_ok.1 hr
    cases hr
    rw [heads, heads, ihx hx, ihy hy, ihz hz]

theorem heads_canonicalIn {t r : Term} {scope : Scope} {s s' : NameSupply}
    (h : (t.canonicalIn scope).runWith s = (.ok r, s')) : r.heads = t.heads := by
  induction t generalizing r scope s s' with
  | name n | const o | var n =>
    cases h
    rfl
  | unary u x ih =>
    obtain ⟨x', _, hx, hr⟩ := Fresh.runWith_bind_eq_ok.1 h
    cases hr
    rw [heads, heads, ih hx]
  | binary b x y ihx ihy =>
    obtain ⟨x', _, hx, hr⟩ := Fresh.runWith_bind_eq_ok.1 h
    obtain ⟨y', _, hy, hr⟩ := Fresh.runWith_bind_eq_ok.1 hr
    cases hr
    rw [heads, heads, ihx hx, ihy hy]
  | lambda p e _ ihe =>
    obtain ⟨⟨p', _⟩, _, hp, hr⟩ := Fresh.runWith_bind_eq_ok.1 h
    obtain ⟨e', _, he, hr⟩ := Fresh.runWith_bind_eq_ok.1 hr
    cases hr
    rw [heads, heads, heads_canonicalPattern hp, ihe he]
  | letrec p d e _ ihd ihe =>
    obtain ⟨⟨p', _⟩, _, hp, hr⟩ := Fresh.runWith_bind_eq_ok.1 h
    obtain ⟨d', _, hd, hr⟩ := Fresh.runWith_bind_eq_ok.1 hr
    obtain ⟨e', _, he, hr⟩ := Fresh.runWith_bind_eq_ok.1 hr
    cases hr
    rw [heads, heads, heads_canonicalPattern hp, ihd hd, ihe he]

theorem heads_canonical {t r : Term} (h : t.canonical = .ok r) : r.heads = t.heads :=
  heads_canonicalIn (Prod.ext h rfl)

/-- Simplification gives no more nodes of any head: normalization makes no copies, and then only names are changed. -/
theorem count_heads_simplify_le {t r : Term} (h : t.simplify = .ok r) (a : Head) :
    r.heads.count a ≤ t.heads.count a := by
  rw [heads_canonical h]
  exact (normalizes_normalize t).shrinks.count_le a

/-! ### Decompilation -/

/-- **Decompilation preserves sharing**: a head that it does not create stands no more often in the decompiled term than
in the code, from any supply of names, and also after simplification. -/
theorem count_heads_decompile_le (c : Term) (ha : a ∉ Head.created) :
    (∀ s t, (c.decompileWith.runWith s).1 = .ok t → t.heads.count a ≤ c.heads.count a) ∧
      ∀ t, c.decompile = .ok t → t.heads.count a ≤ c.heads.count a := by
  refine ⟨fun s t h => count_heads_decompileWith_le ha h, ?_⟩
  intro t h
  obtain ⟨r, hr, ht⟩ := bind_eq_ok.1 h
  exact Nat.le_trans (count_heads_simplify_le ht a) (count_heads_decompileWith_le ha hr)

example : ∀ a ∈ ([.const .hole, .unary .cursor, .unary .paren, .unary .assert, .binary .define] : List Head),
    a ∉ Head.created := by decide

/-- In `S f (W x) (PAREN HOLE)` the last argument is used three times: `S` shares it, and `W` copies the name that it
has then. -/
theorem count_heads_decompile_le_nested :
    Head.unary .paren ∉ Head.created ∧ ∃ t,
      (appAll (.const .s) [.var "f", app (.const .w) (.var "x"), .paren (.const .hole)]).decompile = .ok t ∧
      t.heads.count (.unary .paren) ≤ 1 := by
  have h : (appAll (.const .s) [.var "f", app (.const .w) (.var "x"), .paren (.const .hole)]).decompile = .ok
      (.letrec (.var "a") (.paren (.const .hole))
        (appAll (.var "f") [.var "a", appAll (.var "x") [.var "a", .var "a"]])) := by
    decide +kernel
  exact ⟨by decide, _, h, (count_heads_decompile_le _ (by decide)).2 _ h⟩

end Term

end Combinatory
