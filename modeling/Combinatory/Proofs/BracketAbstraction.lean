import Combinatory.Abstraction
import Combinatory.Proofs.Substitution

/-!
# Bracket abstraction

Which terms can be compiled, and what their code is made of.

## The model

`Abstracts v t u` is the table of bracket abstraction: each row gives the abstraction `u` of the variable `v` from a
term `t` in which it occurs, from the abstractions from the sides that have it. `Compiles t c` gives the rules of
compilation with it. Abstraction and compilation go by the tables (`bracket_eq_ok_iff`, `compile_eq_ok_iff`), so a
property of code is proved by induction on the rows.

Abstraction goes through four heads, the `Head.transparent` ones. Any other term that is not a variable itself is
`Sealed`: abstraction fails on it if the variable occurs in it.

A variable is `Drawable` from a term if each free occurrence stands below heads that abstraction can go through, or
below other binders, which are compiled away first. A term is `Supported` if its binders bind single variables that
are drawable from their scopes.

## What is proved

* `Abstracts.count`: the variable is gone from the abstraction, and all others occur as often as before.
* `sealed_of_bracket`: where abstraction fails, the error names a sealed part that the variable occurs in.
* `Compiles.binderFree`, `Compiles.count_le`: code has no binders, and no variable occurs in it more often than in the
  term.
* `compile_supported`: supported terms can be compiled, code is compiled to itself, and the only errors are those of
  terms that are not supported.
-/

namespace Combinatory

/-- A computation in two parts fails if one of them does. -/
theorem bind_eq_error {ε α β : Type} {x : Except ε α} {k : α → Except ε β} {e : ε} :
    x >>= k = .error e ↔ x = .error e ∨ ∃ a, x = .ok a ∧ k a = .error e := by
  cases x with
  | error e => simp [bind, Except.bind]
  | ok a => simp [bind, Except.bind]

/-- The heads that a variable is drawn through. -/
def Head.transparent : List Head := [.binary .app, .binary .comp, .binary .join, .binary .rand]

namespace Term

variable {v n : String} {t u c x y : Term}

/-! ### Transparent heads -/

/-- The head is neither a variable nor transparent, so that no variable is drawn out of the term. -/
def Sealed (t : Term) : Prop := ∀ a ∈ t.head?, a ≠ .var ∧ a ∉ Head.transparent

/-- Induction along the rows of the table: abstraction goes below transparent heads, and stops at what is sealed. -/
@[elab_as_elim] theorem transparentInduction {P : Term → Prop} (var : ∀ n, P (.var n))
    (transparent : ∀ b x y, Head.binary b ∈ Head.transparent → P x → P y → P (.binary b x y))
    (sealed : ∀ t, t.Sealed → P t) (t : Term) : P t := by
  induction t with
  | var n => exact var n
  | binary b x y ihx ihy =>
    by_cases hb : Head.binary b ∈ Head.transparent
    · exact transparent b x y hb ihx ihy
    · apply sealed
      intro a ha
      cases ha
      exact ⟨by simp, hb⟩
  | name _ =>
    apply sealed
    intro a ha
    cases ha
  | const _ | unary _ _ | lambda _ _ | letrec _ _ _ =>
    apply sealed
    intro a ha
    cases ha
    simp [Head.transparent]

theorem bracket_of_sealed (h : t.Sealed) : t.bracket v = bracketOther v t := by
  cases t with
  | var m => exact absurd rfl (h .var rfl).1
  | binary b x y =>
    cases b with
    | app | comp | join | rand => exact absurd (by decide) (h _ rfl).2
    | define | stack | less | nless | equal => rfl
  | name _ | const _ | unary _ _ | lambda _ _ | letrec _ _ _ => rfl

/-- Abstraction from a term with a transparent head, given the abstractions from both sides. -/
def bracketRow (v : String) (b : Binary) (x y : Term) : Option Term → Option Term → Option Term :=
  match b with
  | .app => bracketApp v x y
  | .comp => bracketComp v x y
  | .join => bracketJoin x y
  | .rand => bracketRand x y
  | _ => fun _ _ => none

/-- Below a transparent head both sides are looked at, the left one first. -/
theorem bracket_transparent {b : Binary} (hb : Head.binary b ∈ Head.transparent) :
    (Term.binary b x y).bracket v = (do return bracketRow v b x y (← x.bracket v) (← y.bracket v)) := by
  cases b with
  | app | comp | join | rand => rfl
  | define | stack | less | nless | equal => exact absurd hb (by decide)

theorem exists_bracket_transparent {b : Binary} (hb : Head.binary b ∈ Head.transparent) :
    (∃ q, (Term.binary b x y).bracket v = .ok q) ↔
      (∃ r, x.bracket v = .ok r) ∧ ∃ s, y.bracket v = .ok s := by
  rw [bracket_transparent hb]
  constructor
  · rintro ⟨q, hq⟩
    obtain ⟨r, hr, hq⟩ := bind_eq_ok.1 hq
    obtain ⟨s, hs, -⟩ := bind_eq_ok.1 hq
    exact ⟨⟨r, hr⟩, s, hs⟩
  · rintro ⟨⟨r, hr⟩, s, hs⟩
    exact ⟨_, bind_eq_ok.2 ⟨r, hr, bind_eq_ok.2 ⟨s, hs, rfl⟩⟩⟩

/-! ### The table of abstraction -/

/-- The abstraction of a variable from a term in which it occurs. -/
inductive Abstracts (v : String) : Term → Term → Prop where
  | var : Abstracts v (.var v) (.const .i)
  | appEta {x : Term} : v ∉ x.freeOccurrences → Abstracts v (app x (.var v)) x
  | appRight {x y ty : Term} : v ∉ x.freeOccurrences → y ≠ .var v → Abstracts v y ty →
    Abstracts v (app x y) (comp x ty)
  | appLeft {x y tx : Term} : v ∉ y.freeOccurrences → Abstracts v x tx →
    Abstracts v (app x y) (appAll (.const .c) [tx, y])
  | appTwice {x tx : Term} : Abstracts v x tx → Abstracts v (app x (.var v)) (app (.const .w) tx)
  | appBoth {x y tx ty : Term} : y ≠ .var v → Abstracts v x tx → Abstracts v y ty →
    Abstracts v (app x y) (appAll (.const .s) [tx, ty])
  | compEta {x : Term} : v ∉ x.freeOccurrences → Abstracts v (comp x (.var v)) (app (.const .b) x)
  | compRight {x y ty : Term} : v ∉ x.freeOccurrences → y ≠ .var v → Abstracts v y ty →
    Abstracts v (comp x y) (comp (app (.const .b) x) ty)
  | compLeft {x y tx : Term} : v ∉ y.freeOccurrences → Abstracts v x tx →
    Abstracts v (comp x y) (comp (app (.const .cb) y) tx)
  | compBoth {x y tx ty : Term} : Abstracts v x tx → Abstracts v y ty →
    Abstracts v (comp x y) (appAll (.const .s) [app (.const .b) tx, ty])
  | joinEta {x y : Term} : v ∉ x.freeOccurrences → Abstracts v y (.const .i) →
    Abstracts v (join x y) (app (.const .j) x)
  | joinRight {x y ty : Term} : v ∉ x.freeOccurrences → ty ≠ .const .i → Abstracts v y ty →
    Abstracts v (join x y) (comp (app (.const .j) x) ty)
  | joinLeft {x y tx : Term} : v ∉ y.freeOccurrences → Abstracts v x tx →
    Abstracts v (join x y) (comp (app (.const .j) y) tx)
  | joinBoth {x y tx ty : Term} : Abstracts v x tx → Abstracts v y ty → Abstracts v (join x y) (join tx ty)
  | randRight {x y ty : Term} : v ∉ x.freeOccurrences → Abstracts v y ty →
    Abstracts v (rand x y) (comp (app (.const .r) x) ty)
  | randLeft {x y tx : Term} : v ∉ y.freeOccurrences → Abstracts v x tx →
    Abstracts v (rand x y) (comp (app (.const .r) y) tx)
  | randBoth {x y tx ty : Term} : Abstracts v x tx → Abstracts v y ty → Abstracts v (rand x y) (rand tx ty)

/-- What abstraction gives: nothing if the variable does not occur, and otherwise an entry of the table. -/
def AbstractsTo (v : String) (t : Term) : Option Term → Prop
  | none => v ∉ t.freeOccurrences
  | some u => Abstracts v t u

section

variable {r s : Option Term}

theorem abstractsTo_app (hx : AbstractsTo v x r) (hy : AbstractsTo v y s) :
    AbstractsTo v (app x y) (bracketApp v x y r s) := by
  cases r with
  | none =>
    cases s with
    | none => exact fun h => (mem_freeOccurrences_binary.1 h).elim hx hy
    | some ty =>
      rw [bracketApp]
      split
      · next h => exact h ▸ .appEta hx
      · next h => exact .appRight hx h hy
  | some tx =>
    cases s with
    | none => exact .appLeft hy hx
    | some ty =>
      rw [bracketApp]
      split
      · next h => exact h ▸ .appTwice hx
      · next h => exact .appBoth h hx hy

theorem abstractsTo_comp (hx : AbstractsTo v x r) (hy : AbstractsTo v y s) :
    AbstractsTo v (comp x y) (bracketComp v x y r s) := by
  cases r with
  | none =>
    cases s with
    | none => exact fun h => (mem_freeOccurrences_binary.1 h).elim hx hy
    | some ty =>
      rw [bracketComp]
      split
      · next h => exact h ▸ .compEta hx
      · next h => exact .compRight hx h hy
  | some tx =>
    cases s with
    | none => exact .compLeft hy hx
    | some ty => exact .compBoth hx hy

theorem abstractsTo_join (hx : AbstractsTo v x r) (hy : AbstractsTo v y s) :
    AbstractsTo v (join x y) (bracketJoin x y r s) := by
  cases r with
  | none =>
    cases s with
    | none => exact fun h => (mem_freeOccurrences_binary.1 h).elim hx hy
    | some ty =>
      rw [bracketJoin]
      split
      · next h => exact .joinEta hx (h ▸ hy)
      · next h => exact .joinRight hx h hy
  | some tx =>
    cases s with
    | none => exact .joinLeft hy hx
    | some ty => exact .joinBoth hx hy

theorem abstractsTo_rand (hx : AbstractsTo v x r) (hy : AbstractsTo v y s) :
    AbstractsTo v (rand x y) (bracketRand x y r s) := by
  cases r with
  | none =>
    cases s with
    | none => exact fun h => (mem_freeOccurrences_binary.1 h).elim hx hy
    | some ty => exact .randRight hx hy
  | some tx =>
    cases s with
    | none => exact .randLeft hy hx
    | some ty => exact .randBoth hx hy

theorem bracketOther_eq_ok_iff : bracketOther v t = .ok r ↔ r = none ∧ v ∉ t.freeOccurrences := by
  rw [← count_eq_zero_iff, bracketOther]
  split
  · next h => simp [h, eq_comm]
  · next h => simp [h]

theorem abstractsTo_other (h : bracketOther v t = .ok r) : AbstractsTo v t r := by
  obtain ⟨rfl, hv⟩ := bracketOther_eq_ok_iff.1 h
  exact hv

theorem abstractsTo_row {b : Binary} (hb : Head.binary b ∈ Head.transparent) (hx : AbstractsTo v x r)
    (hy : AbstractsTo v y s) : AbstractsTo v (.binary b x y) (bracketRow v b x y r s) := by
  cases b with
  | app => exact abstractsTo_app hx hy
  | comp => exact abstractsTo_comp hx hy
  | join => exact abstractsTo_join hx hy
  | rand => exact abstractsTo_rand hx hy
  | define | stack | less | nless | equal => exact absurd hb (by decide)

theorem abstractsTo_bracket (h : t.bracket v = .ok r) : AbstractsTo v t r := by
  induction t using transparentInduction generalizing r with
  | var m =>
    cases h
    split
    · next hm => exact hm ▸ .var
    · next hm => simpa [AbstractsTo, freeOccurrences] using Ne.symm hm
  | transparent b x y hb ihx ihy =>
    rw [bracket_transparent hb] at h
    obtain ⟨r, hr, h⟩ := bind_eq_ok.1 h
    obtain ⟨s, hs, h⟩ := bind_eq_ok.1 h
    obtain rfl := pure_eq_ok.1 h
    exact abstractsTo_row hb (ihx hr) (ihy hs)
  | sealed t ht =>
    rw [bracket_of_sealed ht] at h
    exact abstractsTo_other h

theorem bracket_binary {b : Binary} (hb : Head.binary b ∈ Head.transparent) (hx : x.bracket v = .ok r)
    (hy : y.bracket v = .ok s) : (Term.binary b x y).bracket v = .ok (bracketRow v b x y r s) := by
  rw [bracket_transparent hb, hx, hy]
  rfl

theorem bracket_app (hx : x.bracket v = .ok r) (hy : y.bracket v = .ok s) :
    (app x y).bracket v = .ok (bracketApp v x y r s) :=
  bracket_binary (by decide) hx hy

theorem bracket_comp (hx : x.bracket v = .ok r) (hy : y.bracket v = .ok s) :
    (comp x y).bracket v = .ok (bracketComp v x y r s) :=
  bracket_binary (by decide) hx hy

theorem bracket_join (hx : x.bracket v = .ok r) (hy : y.bracket v = .ok s) :
    (join x y).bracket v = .ok (bracketJoin x y r s) :=
  bracket_binary (by decide) hx hy

theorem bracket_rand (hx : x.bracket v = .ok r) (hy : y.bracket v = .ok s) :
    (rand x y).bracket v = .ok (bracketRand x y r s) :=
  bracket_binary (by decide) hx hy

theorem bracketRow_none (v : String) (b : Binary) (x y : Term) : bracketRow v b x y none none = none := by
  cases b <;> rfl

theorem bracket_var (v n : String) : (Term.var n).bracket v = .ok (if n = v then some (.const .i) else none) := rfl

theorem bracket_of_not_mem (hv : v ∉ t.freeOccurrences) : t.bracket v = .ok none := by
  induction t using transparentInduction with
  | var m =>
    have hm : m ≠ v := fun e => hv (by simp [freeOccurrences, e])
    rw [bracket_var, if_neg hm]
  | transparent b x y hb ihx ihy =>
    rw [mem_freeOccurrences_binary, not_or] at hv
    rw [bracket_binary hb (ihx hv.1) (ihy hv.2), bracketRow_none]
  | sealed t ht =>
    rw [bracket_of_sealed ht]
    exact bracketOther_eq_ok_iff.2 ⟨rfl, hv⟩

theorem bracket_self (v : String) : (Term.var v).bracket v = .ok (some (.const .i)) := by
  rw [bracket_var, if_pos rfl]

theorem Abstracts.bracket (h : Abstracts v t u) : t.bracket v = .ok (some u) := by
  induction h with
  | var => exact bracket_self v
  | appEta hx => simp [bracket_app (bracket_of_not_mem hx) (bracket_self v), bracketApp]
  | appRight hx hne _ ih => simp [bracket_app (bracket_of_not_mem hx) ih, bracketApp, hne]
  | appLeft hy _ ih => exact bracket_app ih (bracket_of_not_mem hy)
  | appTwice _ ih => simp [bracket_app ih (bracket_self v), bracketApp]
  | appBoth hne _ _ ihx ihy => simp [bracket_app ihx ihy, bracketApp, hne]
  | compEta hx => simp [bracket_comp (bracket_of_not_mem hx) (bracket_self v), bracketComp]
  | compRight hx hne _ ih => simp [bracket_comp (bracket_of_not_mem hx) ih, bracketComp, hne]
  | compLeft hy _ ih => exact bracket_comp ih (bracket_of_not_mem hy)
  | compBoth _ _ ihx ihy => exact bracket_comp ihx ihy
  | joinEta hx _ ih => simp [bracket_join (bracket_of_not_mem hx) ih, bracketJoin]
  | joinRight hx hne _ ih => simp [bracket_join (bracket_of_not_mem hx) ih, bracketJoin, hne]
  | joinLeft hy _ ih => exact bracket_join ih (bracket_of_not_mem hy)
  | joinBoth _ _ ihx ihy => exact bracket_join ihx ihy
  | randRight hx _ ih => exact bracket_rand (bracket_of_not_mem hx) ih
  | randLeft hy _ ih => exact bracket_rand ih (bracket_of_not_mem hy)
  | randBoth _ _ ihx ihy => exact bracket_rand ihx ihy

/-- **Abstraction goes by the table.** -/
theorem bracket_eq_ok_iff : t.bracket v = .ok r ↔ AbstractsTo v t r := by
  constructor
  · exact abstractsTo_bracket
  · intro h
    cases r with
    | none => exact bracket_of_not_mem h
    | some u => exact h.bracket

end

/-! ### What an abstraction is made of -/

/-- The variable is gone from the abstraction, and the others occur as often as before. -/
theorem Abstracts.count (h : Abstracts v t u) (n : String) : u.count n = if n = v then 0 else t.count n := by
  have hfree {x : Term} (hx : v ∉ x.freeOccurrences) : x.count v = 0 := count_eq_zero_iff.2 hx
  by_cases hn : n = v
  · subst hn
    induction h <;> simp_all [Term.count]
  · have hvar : (Term.var v).count n = 0 := by simp [Term.count, Ne.symm hn]
    induction h <;> simp_all [Term.count, Nat.add_comm]

/-- A property of terms that goes from the sides of an application or a composition to the whole is kept by
abstraction. Joins and random choices are put together only where there have been some. -/
theorem Abstracts.keeps {P : Term → Prop} {H : Binary → Prop} (hconst : ∀ o, P (.const o)) (happ : H .app)
    (hcomp : H .comp) (hbinary : ∀ b ∈ [Binary.app, .comp, .join, .rand], ∀ x y, P (.binary b x y) ↔ H b ∧ P x ∧ P y)
    (h : Abstracts v t u) (ht : P t) : P u := by
  simp only [List.forall_mem_cons] at hbinary
  induction h <;> simp_all

theorem Abstracts.not_mem (h : Abstracts v t u) : v ∉ u.freeOccurrences := by
  rw [← count_eq_zero_iff, h.count, if_pos rfl]

theorem Abstracts.mem_freeOccurrences (h : Abstracts v t u) : v ∈ t.freeOccurrences := by
  by_contra hv
  have hnone := bracket_of_not_mem hv
  rw [h.bracket] at hnone
  cases hnone

theorem Abstracts.binderFree (h : Abstracts v t u) (ht : t.BinderFree) : u.BinderFree :=
  h.keeps (H := fun _ => True) (fun _ => trivial) trivial trivial (by simp [BinderFree]) ht

/-! ### The rules of compilation -/

/-- The code of a term. -/
inductive Compiles : Term → Term → Prop where
  | name (n : String) : Compiles (.name n) (.name n)
  | const (o : Const) : Compiles (.const o) (.const o)
  | var (n : String) : Compiles (.var n) (.var n)
  | unary (u : Unary) {x c : Term} : Compiles x c → Compiles (.unary u x) (.unary u c)
  | binary (b : Binary) {x y c d : Term} : Compiles x c → Compiles y d → Compiles (.binary b x y) (.binary b c d)
  | constant {v : String} {e c : Term} : Compiles e c → v ∉ c.freeOccurrences →
    Compiles (.lambda (.var v) e) (app (.const .k) c)
  | abstract {v : String} {e c u : Term} : Compiles e c → Abstracts v c u → Compiles (.lambda (.var v) e) u
  | unused {v : String} {d e b c : Term} : Compiles d b → Compiles e c → v ∉ c.freeOccurrences →
    Compiles (.letrec (.var v) d e) c
  | plain {v : String} {d e b c u : Term} : Compiles d b → Compiles e c → Abstracts v c u →
    v ∉ b.freeOccurrences → Compiles (.letrec (.var v) d e) (app u b)
  | recursive {v : String} {d e b c u w : Term} : Compiles d b → Compiles e c → Abstracts v c u → Abstracts v b w →
    Compiles (.letrec (.var v) d e) (app u (app (.const .y) w))

theorem compiles_lambda {v : String} {e c d : Term} (he : Compiles e c) (h : compileLambda v c = .ok d) :
    Compiles (.lambda (.var v) e) d := by
  simp only [compileLambda, bind_eq_ok, pure_eq_ok] at h
  obtain ⟨r, hr, rfl⟩ := h
  cases r with
  | none => exact .constant he (abstractsTo_bracket hr)
  | some u => exact .abstract he (abstractsTo_bracket hr)

theorem compiles_letrec {v : String} {d e b c a : Term} (hd : Compiles d b) (he : Compiles e c)
    (h : compileLetrec v b c = .ok a) : Compiles (.letrec (.var v) d e) a := by
  simp only [compileLetrec, bind_eq_ok] at h
  obtain ⟨r, hr, h⟩ := h
  cases r with
  | none =>
    obtain rfl := pure_eq_ok.1 h
    exact .unused hd he (abstractsTo_bracket hr)
  | some u =>
    obtain ⟨s, hs, h⟩ := bind_eq_ok.1 h
    cases s with
    | none =>
      obtain rfl := pure_eq_ok.1 h
      exact .plain hd he (abstractsTo_bracket hr) (abstractsTo_bracket hs)
    | some w =>
      obtain rfl := pure_eq_ok.1 h
      exact .recursive hd he (abstractsTo_bracket hr) (abstractsTo_bracket hs)

theorem compiles_of_compile (h : t.compile = .ok c) : Compiles t c := by
  induction t generalizing c with
  | name n => cases h; exact .name n
  | const o => cases h; exact .const o
  | var n => cases h; exact .var n
  | unary u x ih =>
    simp only [compile, bind_eq_ok, pure_eq_ok] at h
    obtain ⟨d, hd, rfl⟩ := h
    exact .unary u (ih hd)
  | binary b x y ihx ihy =>
    simp only [compile, bind_eq_ok, pure_eq_ok] at h
    obtain ⟨d, hd, e, he, rfl⟩ := h
    exact .binary b (ihx hd) (ihy he)
  | lambda p e _ ihe =>
    cases p with
    | var v =>
      simp only [compile, bind_eq_ok] at h
      obtain ⟨d, hd, h⟩ := h
      exact compiles_lambda (ihe hd) h
    | name _ | const _ | unary _ _ | binary _ _ _ | lambda _ _ | letrec _ _ _ => simp [compile] at h
  | letrec p d e _ ihd ihe =>
    cases p with
    | var v =>
      simp only [compile, bind_eq_ok] at h
      obtain ⟨b, hb, c, hc, h⟩ := h
      exact compiles_letrec (ihd hb) (ihe hc) h
    | name _ | const _ | unary _ _ | binary _ _ _ | lambda _ _ | letrec _ _ _ => simp [compile] at h

theorem Compiles.compile (h : Compiles t c) : t.compile = .ok c := by
  induction h with
  | name n | const o | var n => rfl
  | unary u _ ih =>
    simp only [Term.compile, bind_eq_ok]
    exact ⟨_, ih, rfl⟩
  | binary b _ _ ihx ihy =>
    simp only [Term.compile, bind_eq_ok]
    exact ⟨_, ihx, _, ihy, rfl⟩
  | constant _ hv ih =>
    simp only [Term.compile, compileLambda, bind_eq_ok]
    exact ⟨_, ih, none, bracket_of_not_mem hv, rfl⟩
  | abstract _ hu ih =>
    simp only [Term.compile, compileLambda, bind_eq_ok]
    exact ⟨_, ih, _, hu.bracket, rfl⟩
  | unused _ _ hv ihd ihe =>
    simp only [Term.compile, compileLetrec, bind_eq_ok]
    exact ⟨_, ihd, _, ihe, none, bracket_of_not_mem hv, rfl⟩
  | plain _ _ hu hv ihd ihe =>
    simp only [Term.compile, compileLetrec, bind_eq_ok]
    refine ⟨_, ihd, _, ihe, _, hu.bracket, ?_⟩
    exact bind_eq_ok.2 ⟨none, bracket_of_not_mem hv, rfl⟩
  | recursive _ _ hu hw ihd ihe =>
    simp only [Term.compile, compileLetrec, bind_eq_ok]
    refine ⟨_, ihd, _, ihe, _, hu.bracket, ?_⟩
    exact bind_eq_ok.2 ⟨_, hw.bracket, rfl⟩

/-- **Compilation goes by the rules.** -/
theorem compile_eq_ok_iff : t.compile = .ok c ↔ Compiles t c := ⟨compiles_of_compile, Compiles.compile⟩

namespace Compiles

theorem binderFree (h : Compiles t c) : c.BinderFree := by
  induction h with
  | name n | const o | var n => trivial
  | unary u _ ih => exact ih
  | binary b _ _ ihx ihy => exact ⟨ihx, ihy⟩
  | constant _ _ ih => exact ⟨trivial, ih⟩
  | abstract _ hu ih => exact hu.binderFree ih
  | unused _ _ _ _ ihe => exact ihe
  | plain _ _ hu _ ihd ihe => exact ⟨hu.binderFree ihe, ihd⟩
  | recursive _ _ hu hw ihd ihe => exact ⟨hu.binderFree ihe, trivial, hw.binderFree ihd⟩

/-- Compilation copies no variable. -/
theorem count_le (h : Compiles t c) (n : String) : c.count n ≤ t.count n := by
  induction h with
  | name _ | const _ | var _ => exact Nat.le_refl _
  | unary u _ ih => exact ih
  | binary b _ _ ihx ihy => exact Nat.add_le_add ihx ihy
  | @constant v e c _ hv ih =>
    by_cases hn : n = v
    · subst hn
      simp [count, payloads, count_eq_zero_iff.2 hv]
    · simpa [count, payloads, hn, Ne.symm hn] using ih
  | @abstract v e c u _ hu ih =>
    by_cases hn : n = v
    · simp [hu.count, hn]
    · simpa [hu.count, count, payloads, hn, Ne.symm hn] using ih
  | @unused v d e b c _ _ hv _ ihe =>
    by_cases hn : n = v
    · subst hn
      simp [count_eq_zero_iff.2 hv]
    · simp only [count, payloads, List.mem_singleton, hn, Ne.symm hn, if_false]
      omega
  | @plain v d e b c u _ _ hu hv ihd ihe =>
    by_cases hn : n = v
    · subst hn
      simp [count, hu.count, count_eq_zero_iff.2 hv]
    · simp only [count, payloads, hu.count, List.mem_singleton, hn, Ne.symm hn, if_false]
      omega
  | @recursive v d e b c u w _ _ hu hw ihd ihe =>
    by_cases hn : n = v
    · simp [count, hu.count, hw.count, hn]
    · simp only [count, payloads, hu.count, hw.count, List.mem_singleton, hn, Ne.symm hn, if_false]
      omega

theorem mem_freeOccurrences (h : Compiles t c) (hn : n ∈ c.freeOccurrences) : n ∈ t.freeOccurrences := by
  by_contra ht
  have hle := h.count_le n
  rw [count_eq_zero_iff.2 ht, Nat.le_zero] at hle
  exact count_eq_zero_iff.1 hle hn

end Compiles

/-- Code is its own code. -/
theorem BinderFree.compiles (h : c.BinderFree) : Compiles c c := by
  induction c with
  | name n => exact .name n
  | const o => exact .const o
  | var n => exact .var n
  | unary u x ih => exact .unary u (ih h)
  | binary b x y ihx ihy => exact .binary b (ihx h.1) (ihy h.2)
  | lambda _ _ | letrec _ _ _ => exact h.elim

/-! ### What can be compiled -/

/-- Each free occurrence of the variable stands below heads that it can be drawn through, or below binders. -/
def Drawable (v : String) : Term → Prop
  | .var _ => True
  | .app x y | .comp x y | .join x y | .rand x y => x.Drawable v ∧ y.Drawable v
  | .lambda p e => v ∈ p.payloads ∨ e.Drawable v
  | .letrec p d e => v ∈ p.payloads ∨ d.Drawable v ∧ e.Drawable v
  | t => v ∉ t.freeOccurrences

/-- Every binder binds a single variable, which is drawable from its scope. -/
def Supported : Term → Prop
  | .unary _ x => x.Supported
  | .binary _ x y => x.Supported ∧ y.Supported
  | .lambda (.var v) e => e.Drawable v ∧ e.Supported
  | .letrec (.var v) d e => (d.Drawable v ∧ e.Drawable v) ∧ d.Supported ∧ e.Supported
  | .lambda _ _ | .letrec _ _ _ => False
  | .name _ | .const _ | .var _ => True

theorem drawable_of_not_mem (h : v ∉ t.freeOccurrences) : t.Drawable v := by
  induction t with
  | var _ => trivial
  | binary b x y ihx ihy =>
    have hxy := h
    rw [mem_freeOccurrences_binary, not_or] at hxy
    cases b with
    | app | comp | join | rand => exact ⟨ihx hxy.1, ihy hxy.2⟩
    | define | stack | less | nless | equal => exact h
  | lambda p e _ ihe =>
    by_cases hp : v ∈ p.payloads
    · exact .inl hp
    · exact .inr (ihe fun he => h (by simp [freeOccurrences, he, hp]))
  | letrec p d e _ ihd ihe =>
    by_cases hp : v ∈ p.payloads
    · exact .inl hp
    · exact .inr ⟨ihd fun hd => h (by simp [freeOccurrences, hd, hp]),
        ihe fun he => h (by simp [freeOccurrences, he, hp])⟩
  | name _ | const _ | unary _ _ => exact h

theorem Abstracts.drawable {w : String} (h : Abstracts v t u) (ht : t.Drawable w) : u.Drawable w := by
  refine h.keeps (H := fun _ => True) (fun _ => List.not_mem_nil) trivial trivial ?_ ht
  simp [Drawable]

/-- A variable can be drawn out of the code if it can be drawn out of the term. -/
theorem Compiles.drawable (h : Compiles t c) (hv : t.Drawable v) : c.Drawable v := by
  induction h with
  | name _ | const _ | var _ => exact hv
  | unary u h ih => exact fun hn => hv (h.mem_freeOccurrences hn)
  | binary b hx hy ihx ihy =>
    cases b with
    | app | comp | join | rand => exact ⟨ihx hv.1, ihy hv.2⟩
    | define | stack | less | nless | equal =>
      exact fun hn => hv ((Compiles.binary _ hx hy).mem_freeOccurrences hn)
  | @constant w e c _ hw ih =>
    rcases hv with hv | hv
    · obtain rfl := List.mem_singleton.1 hv
      exact ⟨List.not_mem_nil, drawable_of_not_mem hw⟩
    · exact ⟨List.not_mem_nil, ih hv⟩
  | @abstract w e c u _ hu ih =>
    rcases hv with hv | hv
    · obtain rfl := List.mem_singleton.1 hv
      exact drawable_of_not_mem hu.not_mem
    · exact hu.drawable (ih hv)
  | @unused w d e b c _ _ hw _ ihe =>
    rcases hv with hv | hv
    · obtain rfl := List.mem_singleton.1 hv
      exact drawable_of_not_mem hw
    · exact ihe hv.2
  | @plain w d e b c u _ _ hu hw ihd ihe =>
    rcases hv with hv | hv
    · obtain rfl := List.mem_singleton.1 hv
      exact ⟨drawable_of_not_mem hu.not_mem, drawable_of_not_mem hw⟩
    · exact ⟨hu.drawable (ihe hv.2), ihd hv.1⟩
  | @recursive w d e b c u f _ _ hu hf ihd ihe =>
    rcases hv with hv | hv
    · obtain rfl := List.mem_singleton.1 hv
      exact ⟨drawable_of_not_mem hu.not_mem, List.not_mem_nil, drawable_of_not_mem hf.not_mem⟩
    · exact ⟨hu.drawable (ihe hv.2), List.not_mem_nil, hf.drawable (ihd hv.1)⟩

/-- A drawable variable can be drawn out of code. -/
theorem exists_abstractsTo (hc : c.BinderFree) (hv : c.Drawable v) : ∃ r, AbstractsTo v c r := by
  suffices h : ∃ r, c.bracket v = .ok r by
    obtain ⟨r, hr⟩ := h
    exact ⟨r, abstractsTo_bracket hr⟩
  induction c with
  | var n => exact ⟨_, rfl⟩
  | binary b x y ihx ihy =>
    cases b with
    | app | comp | join | rand =>
      exact (exists_bracket_transparent (by decide)).2 ⟨ihx hc.1 hv.1, ihy hc.2 hv.2⟩
    | define | stack | less | nless | equal => exact ⟨none, bracketOther_eq_ok_iff.2 ⟨rfl, hv⟩⟩
  | name _ | const _ | unary _ _ => exact ⟨none, bracketOther_eq_ok_iff.2 ⟨rfl, hv⟩⟩
  | lambda _ _ | letrec _ _ _ => exact hc.elim

theorem Supported.exists_compiles (h : t.Supported) : ∃ c, Compiles t c := by
  induction t with
  | name n => exact ⟨_, .name n⟩
  | const o => exact ⟨_, .const o⟩
  | var n => exact ⟨_, .var n⟩
  | unary u x ih =>
    obtain ⟨c, hc⟩ := ih h
    exact ⟨_, .unary u hc⟩
  | binary b x y ihx ihy =>
    obtain ⟨c, hc⟩ := ihx h.1
    obtain ⟨d, hd⟩ := ihy h.2
    exact ⟨_, .binary b hc hd⟩
  | lambda p e _ ihe =>
    cases p with
    | var v =>
      obtain ⟨c, hc⟩ := ihe h.2
      obtain ⟨_ | u, hu⟩ := exists_abstractsTo hc.binderFree (hc.drawable h.1)
      · exact ⟨_, .constant hc hu⟩
      · exact ⟨_, .abstract hc hu⟩
    | name _ | const _ | unary _ _ | binary _ _ _ | lambda _ _ | letrec _ _ _ => exact h.elim
  | letrec p d e _ ihd ihe =>
    cases p with
    | var v =>
      obtain ⟨b, hb⟩ := ihd h.2.1
      obtain ⟨c, hc⟩ := ihe h.2.2
      obtain ⟨_ | u, hu⟩ := exists_abstractsTo hc.binderFree (hc.drawable h.1.2)
      · exact ⟨_, .unused hb hc hu⟩
      · obtain ⟨_ | w, hw⟩ := exists_abstractsTo hb.binderFree (hb.drawable h.1.1)
        · exact ⟨_, .plain hb hc hu hw⟩
        · exact ⟨_, .recursive hb hc hu hw⟩
    | name _ | const _ | unary _ _ | binary _ _ _ | lambda _ _ | letrec _ _ _ => exact h.elim

/-! ### Errors -/

section

variable {err : Error}

/-- The error names a sealed part in which the variable occurs. -/
theorem sealed_of_bracket (h : t.bracket v = .error err) :
    ∃ s, err = .notImplemented (.abstraction v s) ∧ s.Sealed ∧ v ∈ s.freeOccurrences := by
  induction t using transparentInduction with
  | var n => cases h
  | transparent b x y hb ihx ihy =>
    rw [bracket_transparent hb, bind_eq_error] at h
    obtain h | ⟨r, -, h⟩ := h
    · exact ihx h
    obtain h | ⟨s, -, h⟩ := bind_eq_error.1 h
    · exact ihy h
    · cases h
  | sealed t ht =>
    rw [bracket_of_sealed ht, bracketOther] at h
    split at h
    · cases h
    · next hv =>
      cases h
      exact ⟨t, rfl, ht, by_contra fun hn => hv (count_eq_zero_iff.2 hn)⟩

theorem unsupported_of_bracket (h : t.bracket v = .error err) : ∃ what, err = .notImplemented what := by
  obtain ⟨s, rfl, -⟩ := sealed_of_bracket h
  exact ⟨_, rfl⟩

theorem unsupported_of_compileLetrec {d e : Term} (h : compileLetrec v d e = .error err) :
    ∃ what, err = .notImplemented what := by
  simp only [compileLetrec, bind_eq_error] at h
  obtain h | ⟨_ | u, -, h⟩ := h
  · exact unsupported_of_bracket h
  · cases h
  · obtain h | ⟨_ | w, -, h⟩ := bind_eq_error.1 h
    · exact unsupported_of_bracket h
    · cases h
    · cases h

theorem unsupported_of_compile (h : t.compile = .error err) : ∃ what, err = .notImplemented what := by
  induction t with
  | name _ | const _ | var _ => cases h
  | unary u x ih =>
    simp only [compile, bind_eq_error] at h
    obtain h | ⟨c, -, h⟩ := h
    · exact ih h
    · cases h
  | binary b x y ihx ihy =>
    simp only [compile, bind_eq_error] at h
    obtain h | ⟨c, -, h | ⟨d, -, h⟩⟩ := h
    · exact ihx h
    · exact ihy h
    · cases h
  | lambda p e _ ihe =>
    cases p with
    | var v =>
      simp only [compile, compileLambda, bind_eq_error] at h
      obtain h | ⟨c, -, h | ⟨r, -, h⟩⟩ := h
      · exact ihe h
      · exact unsupported_of_bracket h
      · cases h
    | name _ | const _ | unary _ _ | binary _ _ _ | lambda _ _ | letrec _ _ _ =>
      cases h
      exact ⟨_, rfl⟩
  | letrec p d e _ ihd ihe =>
    cases p with
    | var v =>
      simp only [compile, bind_eq_error] at h
      obtain h | ⟨b, -, h | ⟨c, -, h⟩⟩ := h
      · exact ihd h
      · exact ihe h
      · exact unsupported_of_compileLetrec h
    | name _ | const _ | unary _ _ | binary _ _ _ | lambda _ _ | letrec _ _ _ =>
      cases h
      exact ⟨_, rfl⟩

end

/-! ### Compilation of supported terms -/

/-- **Compilation covers the supported terms**: they have code. The code of any term has no binders and no new free
variables, and is compiled to itself; a term without code is reported as not supported. -/
theorem compile_supported (t : Term) :
    (t.Supported → ∃ c, t.compile = .ok c) ∧
      (∀ c, t.compile = .ok c → c.BinderFree ∧ (∀ n ∈ c.freeNames, n ∈ t.freeNames) ∧ c.compile = .ok c) ∧
      ∀ err, t.compile = .error err → ∃ what, err = .notImplemented what := by
  refine ⟨fun h => ?_, fun c hc => ?_, fun err => unsupported_of_compile⟩
  · obtain ⟨c, hc⟩ := h.exists_compiles
    exact ⟨c, hc.compile⟩
  · have h := compiles_of_compile hc
    refine ⟨h.binderFree, fun n hn => ?_, h.binderFree.compiles.compile⟩
    rw [mem_freeNames] at hn ⊢
    exact h.mem_freeOccurrences hn

/-- In `LETREC x (JOIN x y) (LAMBDA x. QUOTE z (RAND x x))`, which redefines its variable, `z` may be quoted. -/
theorem compile_supported_shadowing :
    ∃ c, (Term.letrec (.var "x") (join (.var "x") (.var "y"))
        (.lambda (.var "x") (app (.quote (.var "z")) (rand (.var "x") (.var "x"))))).compile = .ok c ∧
      c.BinderFree ∧ (∀ n ∈ c.freeNames, n = "y" ∨ n = "z") ∧ c.compile = .ok c := by
  have h := compile_supported (.letrec (.var "x") (join (.var "x") (.var "y"))
    (.lambda (.var "x") (app (.quote (.var "z")) (rand (.var "x") (.var "x")))))
  obtain ⟨c, hc⟩ := h.1 (by simp [Supported, Drawable, payloads, freeOccurrences])
  obtain ⟨hfree, hnames, hself⟩ := h.2.1 c hc
  refine ⟨c, hc, hfree, fun n hn => ?_, hself⟩
  simpa [freeOccurrences, payloads] using hnames n hn

end Term

end Combinatory
