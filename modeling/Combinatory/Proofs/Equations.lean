import Combinatory.Proofs.DecompilationRules
import Combinatory.Proofs.Substitution

/-!
# Equations between terms

The equational theory of terms: which terms are equal by the laws of abstractions and of combinators, wherever in a
term the laws are applied.

## The model

`Term.Congruence L` is the least congruence that has the laws `L`. Patterns are not converted, so it is contained in
the congruence that converts them too. The laws come in two parts.

* `LambdaLaw`: bound names may be changed, β, η, and a definition that does not refer to itself is an argument.
* `CombinatorEquation`: what each combinator does with its operands. `Y x` is the recursive definition of the
  function that applies `x` to itself, which is taken once it is applied.

`Equation` has both.

## What is proved

* `Decompiles.congruence`: the rules of decompilation are instances of the equations.
* `congruence_decompileWith`: code is equal to what it is decompiled to, with any supply that avoids its names.
-/

namespace Combinatory

open Nameless

namespace Nameless

@[simp] theorem subst_binary (b : Binary) (x y : Nameless) (n : String) (a : Nameless) :
    (binary b x y).subst n a = binary b (x.subst n a) (y.subst n a) := rfl

@[simp] theorem subst_free_self (n : String) (a : Nameless) : (free n).subst n a = a := Function.update_self ..

end Nameless

namespace Term

/-! ### Laws -/

/-- The least congruence with the given laws. -/
inductive Congruence (L : Term → Term → Prop) : Term → Term → Prop where
  | law {t u : Term} : L t u → Congruence L t u
  | refl (t : Term) : Congruence L t t
  | symm {t u : Term} : Congruence L t u → Congruence L u t
  | trans {t u w : Term} : Congruence L t u → Congruence L u w → Congruence L t w
  | unary (u : Unary) {x x' : Term} : Congruence L x x' → Congruence L (.unary u x) (.unary u x')
  | binary (b : Binary) {x x' y y' : Term} : Congruence L x x' → Congruence L y y' →
    Congruence L (.binary b x y) (.binary b x' y')
  | lambda (p : Term) {e e' : Term} : Congruence L e e' → Congruence L (.lambda p e) (.lambda p e')
  | letrec (p : Term) {d d' e e' : Term} : Congruence L d d' → Congruence L e e' →
    Congruence L (.letrec p d e) (.letrec p d' e')

/-- The laws of abstractions, and of definitions that do not refer to themselves. -/
inductive LambdaLaw : Term → Term → Prop where
  | alpha {t u : Term} : AlphaEq t u → LambdaLaw t u
  | beta {n : String} {e a r : Term} : r.nameless [] = (e.nameless []).subst n (a.nameless []) →
    LambdaLaw (app (.lambda (.var n) e) a) r
  | eta {n : String} {x : Term} : n ∉ x.freeOccurrences → LambdaLaw (.lambda (.var n) (app x (.var n))) x
  | definition {n : String} {d : Term} (e : Term) : n ∉ d.freeOccurrences →
    LambdaLaw (.letrec (.var n) d e) (app (.lambda (.var n) e) d)

/-- The laws of the combinators. -/
inductive CombinatorEquation : Term → Term → Prop where
  | i (x : Term) : CombinatorEquation (appAll (.const .i) [x]) x
  | k (x y : Term) : CombinatorEquation (appAll (.const .k) [x, y]) x
  | b (x y z : Term) : CombinatorEquation (appAll (.const .b) [x, y, z]) (app x (app y z))
  | c (x y z : Term) : CombinatorEquation (appAll (.const .c) [x, y, z]) (appAll x [z, y])
  | w (x y : Term) : CombinatorEquation (appAll (.const .w) [x, y]) (appAll x [y, y])
  | s (x y z : Term) : CombinatorEquation (appAll (.const .s) [x, y, z]) (appAll x [z, app y z])
  | comp (x y : Term) : CombinatorEquation (comp x y) (appAll (.const .b) [x, y])
  | join (x y : Term) : CombinatorEquation (appAll (.const .j) [x, y]) (join x y)
  | rand (x y : Term) : CombinatorEquation (appAll (.const .r) [x, y]) (rand x y)
  | top (x : Term) : CombinatorEquation (app (.const .top) x) (.const .top)
  | bot (x : Term) : CombinatorEquation (app (.const .bot) x) (.const .bot)
  | derived {o : Const} {d : Term} : o.definition = .ok (some d) → CombinatorEquation (.const o) d
  | fixpoint {x : Term} {y z : String} : y ≠ z → y ∉ x.freeOccurrences → z ∉ x.freeOccurrences →
    CombinatorEquation (app (.const .y) x) (x.fixpoint y z)

/-- The laws of abstractions and of combinators. -/
def Equation (t u : Term) : Prop := LambdaLaw t u ∨ CombinatorEquation t u

/-! ### Congruence -/

namespace Congruence

variable {L : Term → Term → Prop} {t u x y : Term}

theorem app (hx : Congruence L t u) (hy : Congruence L x y) : Congruence L (.app t x) (.app u y) := .binary _ hx hy

theorem appAll (h : Congruence L t u) (as : List Term) : Congruence L (t.appAll as) (u.appAll as) :=
  rel_appAll .app .refl h as

theorem lambdaLaw (h : LambdaLaw t u) : Congruence Equation t u := .law (.inl h)

theorem combinator (h : CombinatorEquation t u) : Congruence Equation t u := .law (.inr h)

end Congruence

/-! ### The rules of decompilation -/

end Term

namespace Head

/-- The equations have a law for the head, or leave it alone. Binders, and combinators that look into quotations, do
not stand in such code. -/
def Equational : Head → Prop
  | .const o => o.comparison? = none
  | .lambda | .letrec => False
  | .var | .unary _ | .binary _ => True

instance : DecidablePred Equational
  | .const o => inferInstanceAs (Decidable (o.comparison? = none))
  | .lambda | .letrec => inferInstanceAs (Decidable False)
  | .var | .unary _ | .binary _ => inferInstanceAs (Decidable True)

/-- The heads of code of which decompilation is an instance of the equations. -/
def equationalVocabulary : List Head :=
  [.var, .binary .app, .binary .comp, .binary .join, .binary .rand, .unary .quote, .const .top, .const .bot,
    .const .hole, .const .i, .const .k, .const .b, .const .c, .const .ci, .const .cb, .const .w, .const .s, .const .y,
    .const .u, .const .v, .const .p, .const .j, .const .r]

theorem equational_of_mem : ∀ a ∈ equationalVocabulary, a.Equational := by decide

end Head

namespace Vocabulary

/-- Code that the equations are about. -/
def equational : Vocabulary := ⟨Head.Equational, fun _ => True, True⟩

theorem closed_equational : equational.Closed := by
  show ∀ a ∈ _, Head.Equational a
  decide

end Vocabulary

namespace Term

open Vocabulary

variable {c d a t : Term} {v : String}

theorem nameless_subst_of_not_mem {x : Term} (h : v ∉ x.freeOccurrences) (a : Nameless) :
    (x.nameless []).subst v a = x.nameless [] :=
  subst_of_not_mem (mt mem_frees_nameless_nil.1 h)

theorem Contracts.equation (h : Contracts c d) (hc : c.Over equational) : CombinatorEquation c d := by
  cases h with
  | i => exact .i _
  | k _ y => exact .k _ y
  | b x y z => exact .b x y z
  | c x y z => exact .c x y z
  | w x n => exact .w x (.var n)
  | s x y n => exact .s x y (.var n)
  | comp x y => exact .comp x y
  | derived h => exact .derived h
  | @operator o _ x y ho =>
    cases o <;> cases ho
    · exact .join _ _
    · exact .rand _ _
  | comparison x y ho => exact absurd (ho.symm.trans hc.1.1) (Option.some_ne_none _)

/-- What is taken by an abstraction is a variable. -/
theorem Awaits.eq_var {q : String → Term} (h : Awaits c q) (hc : c.Over equational) : q = .var := by
  cases h with
  | combinator o as _ => rfl
  | comparison ho => exact absurd (ho.symm.trans hc) (Option.some_ne_none _)
  | comparisonWith x ho => exact absurd (ho.symm.trans hc.1) (Option.some_ne_none _)

/-- A shared operand is an argument of what is left. -/
theorem Shares.congruence {q d : String → Term} (h : Shares c a q d) (hc : c.Over equational) (hv : v ∉ c.payloads) :
    q v = .var v ∧ v ∉ a.freeOccurrences ∧ Congruence Equation c (.app (.lambda (.var v) (d v)) a) := by
  have hfree {x : Term} (hx : v ∉ x.payloads) : v ∉ x.freeOccurrences := mt mem_payloads_of_mem_freeOccurrences hx
  cases h with
  | w x a =>
    simp only [appAll_cons, appAll_nil, payloads, List.mem_append, not_or] at hv
    obtain ⟨⟨-, hx⟩, ha⟩ := hv
    refine ⟨rfl, hfree ha, (Congruence.combinator (.w x a)).trans (.symm (.lambdaLaw (.beta ?_)))⟩
    simp [nameless_subst_of_not_mem (hfree hx)]
  | s x y a =>
    simp only [appAll_cons, appAll_nil, payloads, List.mem_append, not_or] at hv
    obtain ⟨⟨⟨-, hx⟩, hy⟩, ha⟩ := hv
    refine ⟨rfl, hfree ha, (Congruence.combinator (.s x y a)).trans (.symm (.lambdaLaw (.beta ?_)))⟩
    simp [nameless_subst_of_not_mem (hfree hx), nameless_subst_of_not_mem (hfree hy)]
  | operand a ho => exact absurd (ho.symm.trans hc.1) (Option.some_ne_none _)
  | left a y ho | right x a ho => exact absurd (ho.symm.trans hc.1.1) (Option.some_ne_none _)

theorem congruence_absorb {o : Const} (ho : o = .top ∨ o = .bot) (as : List Term) :
    Congruence Equation (appAll (.const o) as) (.const o) := by
  have hlaw (x : Term) : CombinatorEquation (app (.const o) x) (.const o) := by
    obtain rfl | rfl := ho
    · exact .top x
    · exact .bot x
  induction as with
  | nil => exact .refl _
  | cons a as ih => exact ((Congruence.combinator (hlaw a)).appAll as).trans ih

/-- **The rules of decompilation** are instances of the equations. -/
theorem Decompiles.congruence {ns : List String} (h : Decompiles c ns t) (hc : c.Over equational) :
    Congruence Equation c t := by
  induction h with
  | var n => exact .refl _
  | hole => exact .refl _
  | absorb as ho => exact congruence_absorb ho as
  | unary u _ ih => exact .unary u (ih hc.2)
  | binary _ _ _ ihx ihy => exact .binary _ (ihx hc.of_binary.1) (ihy hc.of_binary.2)
  | lambda => exact hc.1.elim
  | letrec => exact hc.1.elim
  | contract as h _ ih =>
    obtain ⟨hc, has⟩ := over_appAll.1 hc
    have hd := ih (over_appAll.2 ⟨h.over closed_equational hc, has⟩)
    exact ((Congruence.combinator (h.equation hc)).appAll as).trans hd
  | @abstract c t q y _ hq hy _ ih =>
    obtain rfl := hq.eq_var hc
    have heta : Congruence Equation (.lambda (.var y) (.app c (.var y))) c :=
      .lambdaLaw (.eta (mt mem_payloads_of_mem_freeOccurrences hy))
    exact heta.symm.trans (.lambda _ (ih ⟨hc, trivial⟩))
  | @share c a t u q d v _ _ hsh hv _ _ iha ihd =>
    obtain ⟨hq, ha, hshare⟩ := hsh.congruence hc hv
    obtain ⟨hca, hcd⟩ := hsh.over closed_equational hc
    have hdef : Congruence Equation (.letrec (.var v) a (d v)) (.app (.lambda (.var v) (d v)) a) :=
      .lambdaLaw (.definition (d v) ha)
    rw [hq]
    exact (hshare.trans hdef.symm).trans (.letrec _ (iha hca) (ihd (hcd v trivial)))
  | @fixpoint x t y z _ hyz hy hz _ ih =>
    have hfix : Congruence Equation (.app (.const .y) x) (x.fixpoint y z) :=
      .combinator (.fixpoint hyz (mt mem_payloads_of_mem_freeOccurrences hy)
        (mt mem_payloads_of_mem_freeOccurrences hz))
    exact hfix.trans (.letrec _ (.lambda _ (.app (ih hc.2) (.refl _))) (.refl _))

/-! ### Decompilation -/

/-- **Decompilation is sound for the equations**: with any supply that avoids the names of the code, the code is equal
to what it is decompiled to. -/
theorem congruence_decompileWith {s : NameSupply} (hc : c.WellFormed)
    (hh : ∀ a ∈ c.heads, a ∈ Head.equationalVocabulary) (hs : ∀ n ∈ c.names, n ∈ s.avoid)
    (h : (c.decompileWith.runWith s).1 = .ok t) : Congruence Equation c t := by
  have hcode : c.Over (s.code True) :=
    over_of_heads (fun _ _ => .inl trivial) (fun n hn => .inl (hs n (mem_names.2 hn))) (.inr hc)
  obtain ⟨-, ns, t', rfl, ht, -⟩ := (renders_decompileSpine True c [] s hcode).of_ok (Prod.ext h rfl)
  exact ht.congruence
    (over_of_heads (fun a ha => Head.equational_of_mem a (hh a ha)) (fun _ _ => trivial) (.inr hc))

/-- `W (Y x) (K b)` with a supply that has been used: the second operand is shared, and `Y` takes two more names. -/
theorem congruence_decompileWith_shared :
    Congruence Equation (appAll (.const .w) [app (.const .y) (.var "x"), app (.const .k) (.var "b")])
      (.letrec (.var "c") (.lambda (.var "d") (.var "b"))
        (appAll (.letrec (.var "e") (.lambda (.var "f") (app (.var "x") (app (.var "e") (.var "f")))) (.var "e"))
          [.var "c", .var "c"])) :=
  congruence_decompileWith (s := ⟨1, ["x", "b"]⟩) (by simp [WellFormed]) (by decide) (by decide) (by decide +kernel)

end Term

end Combinatory
