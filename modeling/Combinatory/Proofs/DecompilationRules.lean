import Combinatory.Decompile
import Combinatory.Proofs.NameSupply
import Mathlib.Tactic.Common

/-!
# The rules of decompilation

What decompilation gives for code, as a relation with few rules: a combinator is contracted if it has its operands,
takes those that it lacks by an abstraction, and shares what a contraction would copy by a definition.

## The model

`Decompiles c ns t` says that the code `c` may be decompiled to `t`, with the names `ns` in the binders that
decompilation puts in. The rules do not say where a spine ends and in which order names are drawn. They refer to
three tables, one entry for each combinator:

* `Contracts c d`: the code `c` is replaced by `d` at the head of a spine;
* `Awaits c q`: the code `c` lacks an operand, and takes it with the pattern `q`;
* `Shares c a q d`: the part `a` of `c` is defined by a `LETREC` with the pattern `q`, and `d` is left.

`Term.Over V` says that a term is made of the vocabulary `V`. The rules keep that, if `V` has the heads that they put
into code. `NameSupply.code` is the vocabulary of code that can be decompiled: its names are not drawn, and, unless
decompilation may fail, no part of it is without a rule.

## What is proved

* `renders_decompileSpine`: decompilation goes by the rules, the drawn names are those of the rules, and it fails on
  no code that has rules for all its parts. The proof is by induction on the weight of the code, with a lemma for
  each combinator; what the rules keep need not be proved of the decompiler again.
-/

namespace Combinatory

/-! ### Rules -/

namespace Const

/-- With how many operands a combinator is contracted. It is 0 for what is not contracted, or has a rule of its
own. -/
def operands : Const → Nat
  | .i | .y => 1
  | .k | .w | .j | .r => 2
  | .b | .c | .s => 3
  | _ => 0

/-- The operator that a combinator stands for. -/
def operator? : Const → Option Binary
  | .j => some .join
  | .r => some .rand
  | _ => none

/-- The comparison that a combinator makes of what its operands quote. -/
def comparison? : Const → Option Binary
  | .qless => some .less
  | .qnless => some .nless
  | .qequal => some .equal
  | _ => none

theorem operands_of_operator? {o : Const} {b : Binary} (h : o.operator? = some b) : o.operands = 2 ∧ b ≠ .comp := by
  cases o <;> cases h <;> decide

theorem ne_comp_of_comparison? {o : Const} {b : Binary} (h : o.comparison? = some b) : b ≠ .comp := by
  cases o <;> cases h <;> decide

end Const

namespace Term

/-- At the head of a spine, the first code is replaced by the second. Only variables are copied. -/
inductive Contracts : Term → Term → Prop where
  | i (x : Term) : Contracts (appAll (.const .i) [x]) x
  | k (x y : Term) : Contracts (appAll (.const .k) [x, y]) x
  | b (x y z : Term) : Contracts (appAll (.const .b) [x, y, z]) (appAll x [app y z])
  | c (x y z : Term) : Contracts (appAll (.const .c) [x, y, z]) (appAll x [z, y])
  | w (x : Term) (n : String) : Contracts (appAll (.const .w) [x, .var n]) (appAll x [.var n, .var n])
  | s (x y : Term) (n : String) :
    Contracts (appAll (.const .s) [x, y, .var n]) (appAll x [.var n, app y (.var n)])
  | comp (x y : Term) : Contracts (comp x y) (appAll (.const .b) [x, y])
  | derived {o : Const} {d : Term} : o.definition = .ok (some d) → Contracts (.const o) d
  | operator {o : Const} {b : Binary} (x y : Term) :
    o.operator? = some b → Contracts (appAll (.const o) [x, y]) (.binary b x y)
  | comparison {o : Const} {b : Binary} (x y : Term) :
    o.comparison? = some b → Contracts (appAll (.const o) [.quote x, .quote y]) (.binary b x y)

/-- The code lacks an operand, and takes it with the pattern. -/
inductive Awaits : Term → (String → Term) → Prop where
  | combinator (o : Const) (as : List Term) : as.length < o.operands → Awaits (appAll (.const o) as) .var
  | comparison {o : Const} {b : Binary} : o.comparison? = some b → Awaits (.const o) fun y => .quote (.var y)
  | comparisonWith {o : Const} {b : Binary} (x : Term) :
    o.comparison? = some b → Awaits (app (.const o) (.quote x)) fun y => .quote (.var y)

/-- A part `a` of the code is defined with the pattern, and the code that is left refers to it by name. -/
inductive Shares : Term → Term → (String → Term) → (String → Term) → Prop where
  | w (x a : Term) : Shares (appAll (.const .w) [x, a]) a .var fun v => appAll x [.var v, .var v]
  | s (x y a : Term) : Shares (appAll (.const .s) [x, y, a]) a .var fun v => appAll x [.var v, app y (.var v)]
  | operand {o : Const} {b : Binary} (a : Term) : o.comparison? = some b →
    Shares (app (.const o) a) a (fun v => .quote (.var v)) fun v => app (.const o) (.quote (.var v))
  | left {o : Const} {b : Binary} (a y : Term) : o.comparison? = some b →
    Shares (appAll (.const o) [a, y]) a (fun v => .quote (.var v)) fun v => appAll (.const o) [.quote (.var v), y]
  | right {o : Const} {b : Binary} (x a : Term) : o.comparison? = some b →
    Shares (appAll (.const o) [x, a]) a (fun v => .quote (.var v)) fun v => appAll (.const o) [x, .quote (.var v)]

/-- The code may be decompiled to the term, with new names in the order of their binders. -/
inductive Decompiles : Term → List String → Term → Prop where
  | var (n : String) : Decompiles (.var n) [] (.var n)
  | hole : Decompiles (.const .hole) [] (.const .hole)
  | absorb {o : Const} (as : List Term) : o = .top ∨ o = .bot → Decompiles (appAll (.const o) as) [] (.const o)
  | unary (u : Unary) {x t : Term} {ns : List String} : Decompiles x ns t → Decompiles (.unary u x) ns (.unary u t)
  | binary {b : Binary} {x y t u : Term} {ns ms : List String} : b ≠ .comp → Decompiles x ns t →
    Decompiles y ms u → Decompiles (.binary b x y) (ns ++ ms) (.binary b t u)
  | lambda {p e q t : Term} {ns ms : List String} : Decompiles p ns q → Decompiles e ms t →
    Decompiles (.lambda p e) (ns ++ ms) (.lambda q t)
  | letrec {p d e q t u : Term} {ns ms ks : List String} : Decompiles p ns q → Decompiles d ms t →
    Decompiles e ks u → Decompiles (.letrec p d e) (ns ++ (ms ++ ks)) (.letrec q t u)
  | contract {c d t : Term} {ns : List String} (as : List Term) : Contracts c d → Decompiles (d.appAll as) ns t →
    Decompiles (c.appAll as) ns t
  | abstract {c t : Term} {q : String → Term} {y : String} {ns : List String} : Awaits c q → y ∉ c.payloads →
    Decompiles (.app c (q y)) ns t → Decompiles c (y :: ns) (.lambda (q y) t)
  | share {c a t u : Term} {q d : String → Term} {v : String} {ns ms : List String} : Shares c a q d →
    v ∉ c.payloads → Decompiles a ns t → Decompiles (d v) ms u →
    Decompiles c (v :: (ns ++ ms)) (.letrec (q v) t u)
  | fixpoint {x t : Term} {y z : String} {ns : List String} : y ≠ z → y ∉ x.payloads → z ∉ x.payloads →
    Decompiles x ns t → Decompiles (.app (.const .y) x) (y :: z :: ns) (t.fixpoint y z)

namespace Decompiles

variable {c d x y t u : Term} {ns ms : List String}

theorem app (hx : Decompiles x ns t) (hy : Decompiles y ms u) :
    Decompiles (.app x y) (ns ++ ms) (.app t u) := .binary (by decide) hx hy

theorem binaryVar {b : Binary} (hx : Decompiles x ns t) (hb : b ≠ .comp) (n : String) :
    Decompiles (.binary b x (.var n)) ns (.binary b t (.var n)) := by
  have h := Decompiles.binary hb hx (.var n)
  rwa [List.append_nil] at h

theorem appVar (hx : Decompiles x ns t) (n : String) : Decompiles (.app x (.var n)) ns (.app t (.var n)) :=
  hx.binaryVar (by decide) n

theorem head (h : Contracts c d) (hd : Decompiles d ns t) : Decompiles c ns t := .contract [] h hd

end Decompiles

/-! ### Vocabularies -/

/-- The heads of a term, from left to right. -/
def heads : Term → List Head
  | .name _ => []
  | .const o => [.const o]
  | .var _ => [.var]
  | .unary u x => .unary u :: x.heads
  | .binary b x y => .binary b :: (x.heads ++ y.heads)
  | .lambda p e => .lambda :: (p.heads ++ e.heads)
  | .letrec p d e => .letrec :: (p.heads ++ (d.heads ++ e.heads))

end Term

/-- What terms may be made of. Variables and applications need no leave. -/
structure Vocabulary where
  /-- The heads other than `VAR` and `APP`. -/
  head : Head → Prop
  /-- The names. -/
  name : String → Prop
  /-- Whether a name may stand alone. -/
  bare : Prop

namespace Vocabulary

/-- Vocabularies with all the heads that the rules put into code. -/
def Closed (V : Vocabulary) : Prop :=
  ∀ h ∈ ([.unary .quote, .binary .comp, .binary .join, .binary .rand, .binary .less, .binary .nless, .binary .equal,
    .const .i, .const .b, .const .c, .const .s, .const .y, .const .j] : List Head), V.head h

end Vocabulary

/-- The code that can be decompiled with the names of a supply: its names are not drawn, and, unless `F` holds, every
part of it has a rule. -/
def NameSupply.code (F : Prop) (s : NameSupply) : Vocabulary where
  head h := F ∨ h ≠ .const .a ∧ h ≠ .const .nil
  name := s.Used
  bare := F

theorem NameSupply.closed_code {F : Prop} {s : NameSupply} : (s.code F).Closed := by
  intro h hh
  right
  revert h
  decide

namespace Term

/-- The term is made of the vocabulary. -/
def Over (V : Vocabulary) : Term → Prop
  | .name n => V.bare ∧ V.name n
  | .const o => V.head (.const o)
  | .var n => V.name n
  | .unary u x => V.head (.unary u) ∧ x.Over V
  | .app x y => x.Over V ∧ y.Over V
  | .binary b x y => V.head (.binary b) ∧ x.Over V ∧ y.Over V
  | .lambda p e => V.head .lambda ∧ p.Over V ∧ e.Over V
  | .letrec p d e => V.head .letrec ∧ p.Over V ∧ d.Over V ∧ e.Over V

section

variable {V W : Vocabulary} {F : Prop} {s s' : NameSupply} {c d : Term}

theorem over_binary {b : Binary} (hb : b ≠ .app) {x y : Term} :
    (Term.binary b x y).Over V ↔ V.head (.binary b) ∧ x.Over V ∧ y.Over V := by
  cases b with
  | app => exact absurd rfl hb
  | comp | join | rand | define | stack | less | nless | equal => exact Iff.rfl

theorem Over.of_binary {b : Binary} {x y : Term} (h : (Term.binary b x y).Over V) : x.Over V ∧ y.Over V := by
  by_cases hb : b = .app
  · subst hb
    exact h
  · exact ((over_binary hb).1 h).2

theorem Over.mono (h : c.Over V) (hhead : ∀ a, V.head a → W.head a) (hname : ∀ n, V.name n → W.name n)
    (hbare : V.bare → W.bare) : c.Over W := by
  induction c with
  | name n => exact ⟨hbare h.1, hname n h.2⟩
  | const o => exact hhead _ h
  | var n => exact hname n h
  | unary u x ih => exact ⟨hhead _ h.1, ih h.2⟩
  | binary b x y ihx ihy =>
    by_cases hb : b = .app
    · subst hb
      exact ⟨ihx h.1, ihy h.2⟩
    · rw [over_binary hb] at h ⊢
      exact ⟨hhead _ h.1, ihx h.2.1, ihy h.2.2⟩
  | lambda p e ihp ihe => exact ⟨hhead _ h.1, ihp h.2.1, ihe h.2.2⟩
  | letrec p d e ihp ihd ihe => exact ⟨hhead _ h.1, ihp h.2.1, ihd h.2.2.1, ihe h.2.2.2⟩

/-- Code stays what it is when names are drawn. -/
theorem Over.after (h : c.Over (s.code F)) (hs : s.Precedes s') : c.Over (s'.code F) :=
  h.mono (fun _ => id) (fun _ hn => NameSupply.Used.mono hn hs) id

theorem Over.name (h : c.Over V) {n : String} (hn : n ∈ c.payloads) : V.name n := by
  induction c with
  | name m =>
    obtain rfl := List.mem_singleton.1 hn
    exact h.2
  | const o => cases hn
  | var m =>
    obtain rfl := List.mem_singleton.1 hn
    exact h
  | unary _ x ih => exact ih h.2 hn
  | binary b x y ihx ihy => exact (List.mem_append.1 hn).elim (ihx h.of_binary.1) (ihy h.of_binary.2)
  | lambda p e ihp ihe => exact (List.mem_append.1 hn).elim (ihp h.2.1) (ihe h.2.2)
  | letrec p d e ihp ihd ihe =>
    rcases List.mem_append.1 hn with hn | hn
    · exact (List.mem_append.1 hn).elim (ihp h.2.1) (ihd h.2.2.1)
    · exact ihe h.2.2.2 hn

theorem over_of_heads (hhead : ∀ h ∈ c.heads, V.head h) (hname : ∀ n ∈ c.payloads, V.name n)
    (hbare : V.bare ∨ c.WellFormed) : c.Over V := by
  induction c with
  | name n => exact ⟨hbare.resolve_right id, hname n List.mem_cons_self⟩
  | const o => exact hhead _ List.mem_cons_self
  | var n => exact hname n List.mem_cons_self
  | unary u x ih =>
    rw [heads, List.forall_mem_cons] at hhead
    exact ⟨hhead.1, ih hhead.2 hname hbare⟩
  | binary b x y ihx ihy =>
    rw [heads, List.forall_mem_cons, List.forall_mem_append] at hhead
    rw [payloads, List.forall_mem_append] at hname
    have hx := ihx hhead.2.1 hname.1 (hbare.imp_right And.left)
    have hy := ihy hhead.2.2 hname.2 (hbare.imp_right And.right)
    by_cases hb : b = .app
    · subst hb
      exact ⟨hx, hy⟩
    · exact (over_binary hb).2 ⟨hhead.1, hx, hy⟩
  | lambda p e ihp ihe =>
    rw [heads, List.forall_mem_cons, List.forall_mem_append] at hhead
    rw [payloads, List.forall_mem_append] at hname
    exact ⟨hhead.1, ihp hhead.2.1 hname.1 (hbare.imp_right And.left),
      ihe hhead.2.2 hname.2 (hbare.imp_right And.right)⟩
  | letrec p d e ihp ihd ihe =>
    rw [heads, List.forall_mem_cons, List.forall_mem_append, List.forall_mem_append] at hhead
    rw [payloads, List.forall_mem_append, List.forall_mem_append] at hname
    exact ⟨hhead.1, ihp hhead.2.1 hname.1.1 (hbare.imp_right And.left),
      ihd hhead.2.2.1 hname.1.2 (hbare.imp_right fun h => h.2.1),
      ihe hhead.2.2.2 hname.2 (hbare.imp_right fun h => h.2.2)⟩

theorem over_appAll {h : Term} {as : List Term} : (h.appAll as).Over V ↔ h.Over V ∧ ∀ a ∈ as, a.Over V :=
  appAll_iff fun _ _ => Iff.rfl

theorem Contracts.over (h : Contracts c d) (hV : V.Closed) (hc : c.Over V) : d.Over V := by
  simp only [Vocabulary.Closed, List.forall_mem_cons] at hV
  obtain ⟨-, hcomp, hjoin, hrand, hless, hnless, hequal, hi, hb, hc', hs, hy, hj, -⟩ := hV
  cases h with
  | i x => exact hc.2
  | k x y => exact hc.1.2
  | b x y z => exact ⟨hc.1.1.2, hc.1.2, hc.2⟩
  | c x y z => exact ⟨⟨hc.1.1.2, hc.2⟩, hc.1.2⟩
  | w x n => exact ⟨⟨hc.1.2, hc.2⟩, hc.2⟩
  | s x y n => exact ⟨⟨hc.1.1.2, hc.2⟩, hc.1.2, hc.2⟩
  | comp x y => exact ⟨⟨hb, hc.2.1⟩, hc.2.2⟩
  | @derived o _ ho =>
    cases o <;> cases ho <;>
      simp [reversedApplication, reversedComposition, closure, reflexiveClosure, closureOfJoin, compAll, Over, *]
  | @operator o _ x y ho => cases o <;> cases ho <;> exact ⟨‹_›, hc.1.2, hc.2⟩
  | @comparison o _ x y ho => cases o <;> cases ho <;> exact ⟨‹_›, hc.1.2.2, hc.2.2⟩

theorem Awaits.over {q : String → Term} (h : Awaits c q) (hV : V.Closed) {y : String} (hy : V.name y) :
    (q y).Over V := by
  cases h with
  | combinator o as _ => exact hy
  | comparison _ | comparisonWith x _ => exact ⟨hV _ List.mem_cons_self, hy⟩

theorem Shares.over {a : Term} {q d : String → Term} (h : Shares c a q d) (hV : V.Closed) (hc : c.Over V) :
    a.Over V ∧ ∀ v, V.name v → (d v).Over V := by
  have hquote (v : String) (hv : V.name v) : (Term.quote (.var v)).Over V := ⟨hV _ List.mem_cons_self, hv⟩
  cases h with
  | w x a => exact ⟨hc.2, fun v hv => ⟨⟨hc.1.2, hv⟩, hv⟩⟩
  | s x y a => exact ⟨hc.2, fun v hv => ⟨⟨hc.1.1.2, hv⟩, hc.1.2, hv⟩⟩
  | operand a _ => exact ⟨hc.2, fun v hv => ⟨hc.1, hquote v hv⟩⟩
  | left a y _ => exact ⟨hc.1.2, fun v hv => ⟨⟨hc.1.1, hquote v hv⟩, hc.2⟩⟩
  | right x a _ => exact ⟨hc.2, fun v hv => ⟨hc.1, hquote v hv⟩⟩

end

/-! ### Computations that render code -/

open NameSupply (closed_code)

/-- The computation, which goes on with `s₁` after some names have been drawn from `s`, gives `w t` for a term `t`
that the rules give for the code. It fails only if `F` holds. -/
def Builds (F : Prop) (w : Term → Term) (c : Term) (s s₁ : NameSupply) (x : Fresh Term) : Prop :=
  Fresh.Ensures s₁ x (fun u s' => ∃ ns t, u = w t ∧ Decompiles c ns t ∧ s.Supplies ns s') fun _ => F

/-- The computation gives a term that the rules give for the code, from any supply with which the code can be
decompiled. -/
def Renders (F : Prop) (c : Term) (x : Fresh Term) : Prop := ∀ s, c.Over (s.code F) → Builds F id c s s x

section

variable {F : Prop} {w : Term → Term} {c d : Term} {s s₁ : NameSupply}

namespace Builds

theorem pure {t : Term} {ns : List String} (h : Decompiles c ns t) (hs : s.Supplies ns s₁) :
    Builds F w c s s₁ (Pure.pure (w t)) :=
  Fresh.Ensures.pure ⟨ns, t, rfl, h, hs⟩

theorem contract {x} (as : List Term) (h : Contracts c d) (hx : Builds F w (d.appAll as) s s₁ x) :
    Builds F w (c.appAll as) s s₁ x :=
  Fresh.Ensures.mono hx fun _ _ ⟨ns, t, hu, ht, hs⟩ => ⟨ns, t, hu, .contract as h ht, hs⟩

/-- Rendering some other code first. -/
theorem run {x k} (hx : Renders F d x) (hd : d.Over (s₁.code F))
    (hk : ∀ ns t s₂, Decompiles d ns t → s₁.Supplies ns s₂ → Builds F w c s s₂ (k t)) :
    Builds F w c s s₁ (x >>= k) := by
  refine .bind (hx s₁ hd) fun u s₂ _ hu => ?_
  obtain ⟨ns, t, rfl, ht, hs⟩ := hu
  exact hk ns _ s₂ ht hs

/-- Rendering the code below the binders that have been put in. -/
theorem under {x} (hx : Renders F c x) (hc : c.Over (s.code F)) : Builds F w c s s (x >>= fun t => Pure.pure (w t)) :=
  .run hx hc fun _ _ _ ht hs => .pure ht hs

/-- Drawing a name. -/
theorem name {k} (hk : ∀ v s₂, s₁.Supplies [v] s₂ → ¬s₁.Used v → s₂.Used v → Builds F w c s s₂ (k v)) :
    Builds F w c s s₁ (Fresh.name >>= k) :=
  .bind .name fun v s₂ _ hv =>
    hk v s₂ ⟨[v], hv, .refl _⟩ (hv.not_used List.mem_cons_self) (hv.used List.mem_cons_self)

/-- Drawing the name of a binder that takes an operand. -/
theorem draw {k} {q : String → Term} (hc : c.Over (s.code F)) (hq : Awaits c q)
    (hk : ∀ y s₂, (Term.app c (q y)).Over (s₂.code F) →
      Builds F (fun t => w (.lambda (q y) t)) (.app c (q y)) s₂ s₂ (k y)) :
    Builds F w c s s (Fresh.name >>= k) := by
  refine .name fun y s₂ hs hy hu => ?_
  have hqy : (q y).Over (s₂.code F) := hq.over closed_code hu
  refine Fresh.Ensures.mono (hk y s₂ ⟨hc.after hs.precedes, hqy⟩) ?_
  rintro _ s₃ ⟨ns, t, rfl, ht, hs'⟩
  exact ⟨y :: ns, .lambda (q y) t, rfl, .abstract hq (fun h => hy (hc.name h)) ht, hs.cons hs'⟩

end Builds

/-- Code that is contracted at the head of a spine. -/
theorem Renders.contract {x : Fresh Term} (h : Contracts c d) (as : List Term) (hx : Renders F (d.appAll as) x) :
    Renders F (c.appAll as) x := by
  intro s hr
  rw [over_appAll] at hr
  exact .contract as h (hx s (over_appAll.2 ⟨h.over closed_code hr.1, hr.2⟩))

theorem builds_decompileOnto {as : List Term} (has : ∀ a ∈ as, Renders F a (decompileSpine a [])) {t : Term}
    {ns : List String} (ht : Decompiles c ns t) (hs : s.Supplies ns s₁) (hr : ∀ a ∈ as, a.Over (s₁.code F)) :
    Builds F id (c.appAll as) s s₁ (decompileOnto t as) := by
  induction as generalizing t c ns s₁ with
  | nil =>
    rw [decompileOnto]
    exact .pure ht hs
  | cons a as ih =>
    rw [decompileOnto]
    rw [List.forall_mem_cons] at has hr
    refine .run has.1 hr.1 fun ms u s₂ hu hs₂ => ?_
    exact ih has.2 (ht.app hu) (hs.append hs₂) fun b hb => (hr.2 b hb).after hs₂.precedes

end

/-! ### The combinators -/

/-- All code that weighs less is rendered. -/
def RendersBelow (F : Prop) (w : Nat) : Prop :=
  ∀ h as, h.weight + argsWeight as < w → Renders F (h.appAll as) (decompileSpine h as)

section

variable {F : Prop} {as : List Term}

theorem RendersBelow.args {w : Nat} (ih : RendersBelow F w) (h : argsWeight as ≤ w) :
    ∀ a ∈ as, Renders F a (decompileSpine a []) := by
  intro a ha
  refine ih a [] (Nat.lt_of_lt_of_le ?_ h)
  clear h
  induction as with
  | nil => cases ha
  | cons b bs ihb =>
    simp only [argsWeight]
    rcases List.mem_cons.1 ha with rfl | ha
    · omega
    · have := ihb ha
      simp only [argsWeight] at this
      omega

theorem renders_i (ih : RendersBelow F ((Term.const .i).weight + argsWeight as)) :
    Renders F ((Term.const .i).appAll as) (decompileSpine (.const .i) as) := by
  rcases as with _ | ⟨x, as⟩
  · intro s hr
    rw [decompileSpine]
    exact .draw hr (.combinator .i [] (by decide)) fun x s₁ _ => .pure (.head (.i _) (.var x)) .nil
  · rw [decompileSpine]
    exact .contract (.i x) as (ih x as (by simp only [argsWeight, weight]; omega))

theorem renders_k (ih : RendersBelow F ((Term.const .k).weight + argsWeight as)) :
    Renders F ((Term.const .k).appAll as) (decompileSpine (.const .k) as) := by
  rcases as with _ | ⟨x, _ | ⟨y, as⟩⟩
  · intro s hr
    rw [decompileSpine]
    refine .draw hr (.combinator .k [] (by decide)) fun x s₁ r₁ => ?_
    refine .draw r₁ (.combinator .k [.var x] (by simp [Const.operands])) fun y s₂ _ => ?_
    exact .pure (.head (.k _ _) (.var x)) .nil
  · intro s hr
    rw [decompileSpine]
    refine .draw hr (.combinator .k [x] (by simp [Const.operands])) fun y s₁ r₁ => ?_
    have hx : Renders F x (decompileSpine x []) := ih x [] (by simp only [argsWeight, weight]; omega)
    exact .contract [] (.k x (.var y)) (.under hx r₁.1.2)
  · rw [decompileSpine]
    exact .contract (.k x y) as (ih x as (by simp only [argsWeight, weight]; omega))

theorem renders_b (ih : RendersBelow F ((Term.const .b).weight + argsWeight as)) :
    Renders F ((Term.const .b).appAll as) (decompileSpine (.const .b) as) := by
  rcases as with _ | ⟨x, _ | ⟨y, _ | ⟨z, as⟩⟩⟩
  · intro s hr
    rw [decompileSpine]
    refine .draw hr (.combinator .b [] (by decide)) fun x s₁ r₁ => ?_
    refine .draw r₁ (.combinator .b [.var x] (by simp [Const.operands])) fun y s₂ r₂ => ?_
    refine .draw r₂ (.combinator .b [.var x, .var y] (by simp [Const.operands])) fun z s₃ _ => ?_
    exact .pure (.head (.b _ _ _) ((Decompiles.var x).app ((Decompiles.var y).appVar z))) .nil
  · intro s hr
    rw [decompileSpine]
    refine .draw hr (.combinator .b [x] (by simp [Const.operands])) fun y s₁ r₁ => ?_
    refine .draw r₁ (.combinator .b [x, .var y] (by simp [Const.operands])) fun z s₂ r₂ => ?_
    have hw : x.weight + argsWeight [app (.var y) (.var z)] < (Term.const .b).weight + argsWeight [x] := by
      simp only [argsWeight, weight, Const.weight, Binary.weight]
      omega
    exact .contract [] (.b x (.var y) (.var z)) (.under (ih x _ hw) ((Contracts.b _ _ _).over closed_code r₂))
  · intro s hr
    rw [decompileSpine]
    refine .draw hr (.combinator .b [x, y] (by simp [Const.operands])) fun z s₁ r₁ => ?_
    have hw : x.weight + argsWeight [app y (.var z)] < (Term.const .b).weight + argsWeight [x, y] := by
      simp only [argsWeight, weight, Const.weight, Binary.weight]
      omega
    exact .contract [] (.b x y (.var z)) (.under (ih x _ hw) ((Contracts.b _ _ _).over closed_code r₁))
  · rw [decompileSpine]
    have hw : x.weight + argsWeight (app y z :: as) < (Term.const .b).weight + argsWeight (x :: y :: z :: as) := by
      simp only [argsWeight, weight, Const.weight, Binary.weight]
      omega
    exact .contract (.b x y z) as (ih x _ hw)

theorem renders_c (ih : RendersBelow F ((Term.const .c).weight + argsWeight as)) :
    Renders F ((Term.const .c).appAll as) (decompileSpine (.const .c) as) := by
  rcases as with _ | ⟨x, _ | ⟨y, _ | ⟨z, as⟩⟩⟩
  · intro s hr
    rw [decompileSpine]
    refine .draw hr (.combinator .c [] (by decide)) fun x s₁ r₁ => ?_
    refine .draw r₁ (.combinator .c [.var x] (by simp [Const.operands])) fun y s₂ r₂ => ?_
    refine .draw r₂ (.combinator .c [.var x, .var y] (by simp [Const.operands])) fun z s₃ _ => ?_
    exact .pure (.head (.c _ _ _) (((Decompiles.var x).appVar z).appVar y)) .nil
  · intro s hr
    rw [decompileSpine]
    refine .draw hr (.combinator .c [x] (by simp [Const.operands])) fun y s₁ r₁ => ?_
    refine .draw r₁ (.combinator .c [x, .var y] (by simp [Const.operands])) fun z s₂ r₂ => ?_
    have hw : x.weight + argsWeight [.var z, .var y] < (Term.const .c).weight + argsWeight [x] := by
      simp only [argsWeight, weight, Const.weight]
      omega
    exact .contract [] (.c x (.var y) (.var z)) (.under (ih x _ hw) ((Contracts.c _ _ _).over closed_code r₂))
  · intro s hr
    rw [decompileSpine]
    refine .draw hr (.combinator .c [x, y] (by simp [Const.operands])) fun z s₁ r₁ => ?_
    have hw : x.weight + argsWeight [.var z, y] < (Term.const .c).weight + argsWeight [x, y] := by
      simp only [argsWeight, weight, Const.weight]
      omega
    exact .contract [] (.c x y (.var z)) (.under (ih x _ hw) ((Contracts.c _ _ _).over closed_code r₁))
  · rw [decompileSpine]
    have hw : x.weight + argsWeight (z :: y :: as) < (Term.const .c).weight + argsWeight (x :: y :: z :: as) := by
      simp only [argsWeight, weight, Const.weight]
      omega
    exact .contract (.c x y z) as (ih x _ hw)

/-- An operand that would be copied is shared by a definition. -/
theorem builds_shared {c a : Term} {d : String → Term} {k : String → Fresh Term} {s : NameSupply}
    (h : Shares c a .var d) (hc : c.Over (s.code F)) (has : ∀ b ∈ as, b.Over (s.code F))
    (hargs : ∀ b ∈ as, Renders F b (decompileSpine b [])) (ha : Renders F a (decompileSpine a []))
    (hd : ∀ v, Renders F (d v) (k v)) :
    Builds F id (c.appAll as) s s (do
      let v ← Fresh.name
      let ta ← decompileSpine a []
      let t ← k v
      decompileOnto (.letrec (.var v) ta t) as) := by
  refine .name fun v s₁ h₁ hv hu => ?_
  have hc₁ := hc.after h₁.precedes
  refine .run ha (h.over closed_code hc₁).1 fun ns ta s₂ hta h₂ => ?_
  have hleft := (h.over closed_code (hc₁.after h₂.precedes)).2 v (hu.mono h₂.precedes)
  refine .run (hd v) hleft fun ms t s₃ ht h₃ => ?_
  have hs := h₁.cons (h₂.append h₃)
  exact builds_decompileOnto hargs (.share h (fun hm => hv (hc.name hm)) hta ht) hs
    fun b hb => (has b hb).after hs.precedes

theorem renders_w (ih : RendersBelow F ((Term.const .w).weight + argsWeight as)) :
    Renders F ((Term.const .w).appAll as) (decompileSpine (.const .w) as) := by
  rcases as with _ | ⟨x, _ | ⟨y, as⟩⟩
  · intro s hr
    rw [decompileSpine]
    refine .draw hr (.combinator .w [] (by decide)) fun x s₁ r₁ => ?_
    refine .draw r₁ (.combinator .w [.var x] (by simp [Const.operands])) fun y s₂ _ => ?_
    exact .pure (.head (.w _ _) (((Decompiles.var x).appVar y).appVar y)) .nil
  · intro s hr
    rw [decompileSpine]
    refine .draw hr (.combinator .w [x] (by simp [Const.operands])) fun y s₁ r₁ => ?_
    have hx : Renders F x (decompileSpine x []) := ih x [] (by simp only [argsWeight, weight]; omega)
    exact .run hx r₁.1.2 fun ns tx s₂ htx h₂ => .pure (.head (.w _ _) ((htx.appVar y).appVar y)) h₂
  · intro s hr
    obtain ⟨hc, has⟩ := over_appAll (h := .app (.app (.const .w) x) y).1 hr
    have hargs : ∀ a ∈ as, Renders F a (decompileSpine a []) := ih.args (by simp only [argsWeight]; omega)
    have hcopy (n : String) : x.weight + argsWeight [.var n, .var n] <
        (Term.const .w).weight + argsWeight (x :: y :: as) := by
      simp only [argsWeight, weight, Const.weight]
      omega
    -- a variable is copied, any other operand is shared
    by_cases hy : ∃ n, y = .var n
    · obtain ⟨n, rfl⟩ := hy
      rw [decompileSpine]
      refine .run (ih x _ (hcopy n)) ((Contracts.w x n).over closed_code hc) fun ns t s₁ ht h₁ => ?_
      exact builds_decompileOnto hargs (.head (.w x n) ht) h₁ fun a ha => (has a ha).after h₁.precedes
    · rw [decompileSpine]
      · have hry : Renders F y (decompileSpine y []) := ih y [] (by simp only [argsWeight, weight]; omega)
        exact builds_shared (.w x y) hc has hargs hry fun v => ih x _ (hcopy v)
      · exact fun n e => hy ⟨n, e⟩

theorem renders_s (ih : RendersBelow F ((Term.const .s).weight + argsWeight as)) :
    Renders F ((Term.const .s).appAll as) (decompileSpine (.const .s) as) := by
  rcases as with _ | ⟨x, _ | ⟨y, _ | ⟨z, as⟩⟩⟩
  · intro s hr
    rw [decompileSpine]
    refine .draw hr (.combinator .s [] (by decide)) fun x s₁ r₁ => ?_
    refine .draw r₁ (.combinator .s [.var x] (by simp [Const.operands])) fun y s₂ r₂ => ?_
    refine .draw r₂ (.combinator .s [.var x, .var y] (by simp [Const.operands])) fun z s₃ _ => ?_
    exact .pure (.head (.s _ _ _) (((Decompiles.var x).appVar z).app ((Decompiles.var y).appVar z))) .nil
  · intro s hr
    rw [decompileSpine]
    refine .draw hr (.combinator .s [x] (by simp [Const.operands])) fun y s₁ r₁ => ?_
    refine .draw r₁ (.combinator .s [x, .var y] (by simp [Const.operands])) fun z s₂ r₂ => ?_
    have hx : Renders F x (decompileSpine x []) := ih x [] (by simp only [argsWeight, weight]; omega)
    exact .run hx r₂.1.1.2 fun ns tx s₃ htx h₃ =>
      .pure (.head (.s _ _ _) ((htx.appVar z).app ((Decompiles.var y).appVar z))) (h₃.append .nil)
  · intro s hr
    rw [decompileSpine]
    refine .draw hr (.combinator .s [x, y] (by simp [Const.operands])) fun z s₁ r₁ => ?_
    have hx : Renders F x (decompileSpine x []) := ih x [] (by simp only [argsWeight, weight]; omega)
    have hy : Renders F y (decompileSpine y []) := ih y [] (by simp only [argsWeight, weight]; omega)
    refine .run hx r₁.1.1.2 fun ns tx s₂ htx h₂ => ?_
    refine .run hy (r₁.1.2.after h₂.precedes) fun ms ty s₃ hty h₃ => ?_
    exact .pure (.head (.s _ _ _) ((htx.appVar z).app (hty.appVar z))) (h₂.append h₃)
  · intro s hr
    obtain ⟨hc, has⟩ := over_appAll (h := .app (.app (.app (.const .s) x) y) z).1 hr
    have hargs : ∀ a ∈ as, Renders F a (decompileSpine a []) := ih.args (by simp only [argsWeight]; omega)
    have hcopy (n : String) : x.weight + argsWeight [.var n, app y (.var n)] <
        (Term.const .s).weight + argsWeight (x :: y :: z :: as) := by
      simp only [argsWeight, weight, Const.weight, Binary.weight]
      omega
    by_cases hz : ∃ n, z = .var n
    · obtain ⟨n, rfl⟩ := hz
      rw [decompileSpine]
      refine .run (ih x _ (hcopy n)) ((Contracts.s x y n).over closed_code hc) fun ns t s₁ ht h₁ => ?_
      exact builds_decompileOnto hargs (.head (.s x y n) ht) h₁ fun a ha => (has a ha).after h₁.precedes
    · rw [decompileSpine]
      · have hrz : Renders F z (decompileSpine z []) := ih z [] (by simp only [argsWeight, weight]; omega)
        exact builds_shared (.s x y z) hc has hargs hrz fun v => ih x _ (hcopy v)
      · exact fun n e => hz ⟨n, e⟩

theorem renders_y (ih : RendersBelow F ((Term.const .y).weight + argsWeight as)) :
    Renders F ((Term.const .y).appAll as) (decompileSpine (.const .y) as) := by
  rcases as with _ | ⟨x, as⟩
  · intro s hr
    rw [decompileSpine]
    refine .draw hr (.combinator .y [] (by decide)) fun x s₁ r₁ => ?_
    refine .name fun y s₂ h₂ hy hu => .name fun z s₃ h₃ hz _ => ?_
    have hyz : y ≠ z := by
      rintro rfl
      exact hz hu
    refine .pure (.fixpoint hyz ?_ ?_ (.var x)) (h₂.append h₃)
    · exact fun hm => hy (r₁.2.name hm)
    · exact fun hm => hz ((r₁.2.after h₂.precedes).name hm)
  · intro s hr
    obtain ⟨hc, has⟩ := over_appAll (h := .app (.const .y) x).1 hr
    rw [decompileSpine]
    refine .run (ih x [] (by simp only [argsWeight, weight]; omega)) hc.2 fun ns tx s₁ htx h₁ => ?_
    refine .name fun y s₂ h₂ hy hu => .name fun z s₃ h₃ hz _ => ?_
    have hyz : y ≠ z := by
      rintro rfl
      exact hz hu
    have hx₁ := hc.2.after h₁.precedes
    have hfix : Decompiles (.app (.const .y) x) (y :: z :: ns) (tx.fixpoint y z) :=
      .fixpoint hyz (fun hm => hy (hx₁.name hm)) (fun hm => hz ((hx₁.after h₂.precedes).name hm)) htx
    have hs : s.Supplies (y :: z :: ns) s₃ := (h₁.append (h₂.append h₃)).perm List.perm_append_comm
    exact builds_decompileOnto (ih.args (by simp only [argsWeight]; omega)) hfix hs
      fun a ha => (has a ha).after hs.precedes

/-- `J` and `R`. -/
theorem renders_decompileOperator {o : Const} {b : Binary} (ho : o.operator? = some b)
    (hargs : ∀ a ∈ as, Renders F a (decompileSpine a [])) :
    Renders F ((Term.const o).appAll as) (decompileOperator b as) := by
  obtain ⟨hoperands, hb⟩ := Const.operands_of_operator? ho
  rcases as with _ | ⟨x, _ | ⟨y, as⟩⟩
  · intro s hr
    rw [decompileOperator]
    refine .draw hr (.combinator o [] (by simp [hoperands])) fun x s₁ r₁ => ?_
    refine .draw r₁ (.combinator o [.var x] (by simp [hoperands])) fun y s₂ _ => ?_
    exact .pure (.head (.operator _ _ ho) ((Decompiles.var x).binaryVar hb y)) .nil
  · intro s hr
    rw [decompileOperator]
    refine .run (hargs x List.mem_cons_self) hr.2 fun ns tx s₁ htx h₁ => ?_
    refine .name fun y s₂ h₂ hy _ => ?_
    have hlambda : Decompiles (appAll (.const o) [x]) (y :: ns) (.lambda (.var y) (.binary b tx (.var y))) :=
      .abstract (.combinator o [x] (by simp [hoperands])) (fun hm => hy ((hr.after h₁.precedes).name hm))
        (.head (.operator x (.var y) ho) (htx.binaryVar hb y))
    exact .pure hlambda ((h₁.append h₂).perm List.perm_append_comm)
  · intro s hr
    obtain ⟨hc, has⟩ := over_appAll (h := .app (.app (.const o) x) y).1 hr
    rw [decompileOperator]
    rw [List.forall_mem_cons, List.forall_mem_cons] at hargs
    refine .run hargs.1 hc.1.2 fun ns tx s₁ htx h₁ => ?_
    refine .run hargs.2.1 (hc.2.after h₁.precedes) fun ms ty s₂ hty h₂ => ?_
    have hs := h₁.append h₂
    exact builds_decompileOnto hargs.2.2 (.head (.operator x y ho) (.binary hb htx hty)) hs
      fun a ha => (has a ha).after hs.precedes

/-- A comparison of operands that are not quoted. -/
theorem decompiles_comparison {o : Const} {b : Binary} (ho : o.comparison? = some b) {x y tx ty : Term}
    {ns ms : List String} {u v : String} (huv : u ≠ v) (hu : u ∉ (appAll (.const o) [x, y]).payloads)
    (hv : v ∉ (appAll (.const o) [x, y]).payloads) (hx : Decompiles x ns tx) (hy : Decompiles y ms ty) :
    Decompiles (appAll (.const o) [x, y]) (u :: (ns ++ v :: ms))
      (.letrec (.quote (.var u)) tx (.letrec (.quote (.var v)) ty (.binary b (.var u) (.var v)))) := by
  have hb := Const.ne_comp_of_comparison? ho
  have hv' : v ∉ (appAll (.const o) [.quote (.var u), y]).payloads := by
    simp_all [payloads, Ne.symm]
  have hinner := Decompiles.share (.right (.quote (.var u)) y ho) hv' hy
    (.head (.comparison (.var u) (.var v) ho) ((Decompiles.var u).binaryVar hb v))
  rw [List.append_nil] at hinner
  exact .share (.left x y ho) hu hx hinner

/-- `QLESS`, `QNLESS` and `QEQUAL`. -/
theorem renders_decompileComparison {o : Const} {b : Binary} (ho : o.comparison? = some b) {w : Nat}
    (ih : RendersBelow F w) (hw : argsWeight as ≤ w) :
    Renders F ((Term.const o).appAll as) (decompileComparison b as) := by
  have hb := Const.ne_comp_of_comparison? ho
  rcases as with _ | ⟨x, _ | ⟨y, as⟩⟩
  · intro s hr
    rw [decompileComparison]
    refine .draw hr (.comparison ho) fun x s₁ r₁ => ?_
    refine .draw r₁ (.comparisonWith (.var x) ho) fun y s₂ _ => ?_
    exact .pure (.head (.comparison _ _ ho) ((Decompiles.var x).binaryVar hb y)) .nil
  · intro s hr
    by_cases hx : ∃ x', x = .quote x'
    · obtain ⟨x, rfl⟩ := hx
      rw [decompileComparison]
      refine .draw hr (.comparisonWith x ho) fun y s₁ r₁ => ?_
      have hx : Renders F x (decompileSpine x []) := ih x [] (by simp only [argsWeight, weight] at hw ⊢; omega)
      exact .run hx r₁.1.2.2 fun ns tx s₂ htx h₂ => .pure (.head (.comparison _ _ ho) (htx.binaryVar hb y)) h₂
    · rw [decompileComparison]
      · refine .name fun u s₁ h₁ hu hu₁ => .name fun v s₂ h₂ hv _ => ?_
        refine .run (ih.args hw x List.mem_cons_self) (hr.2.after (h₁.append h₂).precedes) fun ns tx s₃ htx h₃ => ?_
        have huv : v ∉ (app (.const o) (.quote (.var u))).payloads := by
          simp only [payloads, List.nil_append, List.mem_singleton]
          rintro rfl
          exact hv hu₁
        have hinner := Decompiles.abstract (.comparisonWith (.var u) ho) huv
          (.head (.comparison (.var u) (.var v) ho) ((Decompiles.var u).binaryVar hb v))
        exact .pure (.share (.operand x ho) (fun hm => hu (hr.name hm)) htx hinner)
          (h₁.cons ((h₂.append h₃).perm List.perm_append_comm))
      · exact fun x' e => hx ⟨x', e⟩
  · intro s hr
    obtain ⟨hc, has⟩ := over_appAll (h := .app (.app (.const o) x) y).1 hr
    have hargs := ih.args hw
    rw [List.forall_mem_cons, List.forall_mem_cons] at hargs
    by_cases hxy : ∃ x' y', x = .quote x' ∧ y = .quote y'
    · obtain ⟨x, y, rfl, rfl⟩ := hxy
      rw [decompileComparison]
      have hx : Renders F x (decompileSpine x []) := ih x [] (by simp only [argsWeight, weight] at hw ⊢; omega)
      have hy : Renders F y (decompileSpine y []) := ih y [] (by simp only [argsWeight, weight] at hw ⊢; omega)
      refine .run hx hc.1.2.2 fun ns tx s₁ htx h₁ => ?_
      refine .run hy (hc.2.2.after h₁.precedes) fun ms ty s₂ hty h₂ => ?_
      have hs := h₁.append h₂
      exact builds_decompileOnto hargs.2.2 (.head (.comparison x y ho) (.binary hb htx hty)) hs
        fun a ha => (has a ha).after hs.precedes
    · rw [decompileComparison]
      · refine .name fun u s₁ h₁ hu hu₁ => .name fun v s₂ h₂ hv _ => ?_
        have h₁₂ := h₁.append h₂
        refine .run hargs.1 (hc.1.2.after h₁₂.precedes) fun ns tx s₃ htx h₃ => ?_
        refine .run hargs.2.1 (hc.2.after (h₁₂.append h₃).precedes) fun ms ty s₄ hty h₄ => ?_
        have huv : u ≠ v := by
          rintro rfl
          exact hv hu₁
        have hletrec := decompiles_comparison ho huv (fun hm => hu (hc.name hm))
          (fun hm => hv ((hc.after h₁.precedes).name hm)) htx hty
        have hs : s.Supplies (u :: (ns ++ v :: ms)) s₄ :=
          h₁.cons ((h₂.cons (h₃.append h₄)).perm List.perm_middle.symm)
        exact builds_decompileOnto hargs.2.2 hletrec hs fun a ha => (has a ha).after hs.precedes
      · rintro x' y' rfl rfl
        exact hxy ⟨x', y', rfl, rfl⟩

/-- A combinator that is decompiled as its definition. -/
theorem renders_derived {o : Const} {d : Term} (h : o.definition = .ok (some d))
    (ih : RendersBelow F ((Term.const o).weight + argsWeight as)) (hw : d.weight < (Term.const o).weight) :
    Renders F ((Term.const o).appAll as) (decompileSpine d as) :=
  .contract (.derived h) as (ih d as (by omega))

theorem renders_comp {x y : Term} (ih : RendersBelow F ((comp x y).weight + argsWeight as)) :
    Renders F ((comp x y).appAll as) (decompileSpine (comp x y) as) := by
  rw [decompileSpine_comp]
  have hw : (Term.const .b).weight + argsWeight (x :: y :: as) < (comp x y).weight + argsWeight as := by
    simp only [argsWeight, weight, Const.weight, Binary.weight]
    omega
  exact .contract (.comp x y) as (ih _ _ hw)

theorem renders_const {o : Const} (ih : RendersBelow F ((Term.const o).weight + argsWeight as)) :
    Renders F ((Term.const o).appAll as) (decompileSpine (.const o) as) := by
  have hw : argsWeight as ≤ (Term.const o).weight + argsWeight as := by omega
  have hargs := ih.args hw
  cases o with
  | i => exact renders_i ih
  | k => exact renders_k ih
  | b => exact renders_b ih
  | c => exact renders_c ih
  | w => exact renders_w ih
  | s => exact renders_s ih
  | y => exact renders_y ih
  | j | r =>
    rw [decompileSpine]
    exact renders_decompileOperator rfl hargs
  | qless | qnless | qequal =>
    rw [decompileSpine]
    exact renders_decompileComparison rfl ih hw
  | ci | cb | u | v | p =>
    rw [decompileSpine]
    exact renders_derived rfl ih (by decide)
  | hole =>
    intro s hr
    rw [decompileSpine]
    exact builds_decompileOnto hargs .hole .nil (over_appAll.1 hr).2
  | top =>
    intro s hr
    rw [decompileSpine]
    exact .pure (.absorb as (.inl rfl)) .nil
  | bot =>
    intro s hr
    rw [decompileSpine]
    exact .pure (.absorb as (.inr rfl)) .nil
  | a =>
    intro s hr
    rw [decompileSpine]
    exact .throw ((over_appAll.1 hr).1.resolve_right fun h => h.1 rfl)
  | nil =>
    intro s hr
    rw [decompileSpine]
    exact .throw ((over_appAll.1 hr).1.resolve_right fun h => h.2 rfl)

theorem renders_binary {b : Binary} {x y : Term} (ih : RendersBelow F ((Term.binary b x y).weight + argsWeight as)) :
    Renders F ((Term.binary b x y).appAll as) (decompileSpine (.binary b x y) as) := by
  by_cases happ : b = .app
  · subst happ
    rw [decompileSpine_app]
    exact ih x (y :: as) (by simp only [weight, argsWeight, Binary.weight]; omega)
  by_cases hcomp : b = .comp
  · subst hcomp
    exact renders_comp ih
  intro s hr
  obtain ⟨hc, has⟩ := over_appAll.1 hr
  replace hc := hc.of_binary
  have hx : Renders F x (decompileSpine x []) := ih x [] (by simp only [argsWeight, weight]; omega)
  have hy : Renders F y (decompileSpine y []) := ih y [] (by simp only [argsWeight, weight]; omega)
  rw [decompileSpine]
  · refine .run hx hc.1 fun ns tx s₁ htx h₁ => ?_
    refine .run hy (hc.2.after h₁.precedes) fun ms ty s₂ hty h₂ => ?_
    have hs := h₁.append h₂
    exact builds_decompileOnto (ih.args (by omega)) (.binary hcomp htx hty) hs
      fun a ha => (has a ha).after hs.precedes
  · exact happ
  · exact hcomp

end

/-- **Decompilation goes by the rules**: one lemma for each head, by induction on the weight. -/
theorem renders_decompileSpine (F : Prop) (h : Term) (as : List Term) :
    Renders F (h.appAll as) (decompileSpine h as) := by
  induction hw : h.weight + argsWeight as using Nat.strongRecOn generalizing h as with | ind w ih
  subst hw
  replace ih : RendersBelow F (h.weight + argsWeight as) := fun h' as' hlt => ih _ hlt h' as' rfl
  have hargs : ∀ a ∈ as, Renders F a (decompileSpine a []) := ih.args (by omega)
  cases h with
  | var n =>
    intro s hr
    rw [decompileSpine]
    exact builds_decompileOnto hargs (.var n) .nil (over_appAll.1 hr).2
  | const o => exact renders_const ih
  | binary b x y => exact renders_binary ih
  | name n =>
    intro s hr
    rw [decompileSpine]
    exact .throw (over_appAll.1 hr).1.1
  | unary u x =>
    intro s hr
    obtain ⟨hc, has⟩ := over_appAll.1 hr
    rw [decompileSpine]
    have hx : Renders F x (decompileSpine x []) := ih x [] (by simp only [argsWeight, weight]; omega)
    refine .run hx hc.2 fun ns tx s₁ htx hs => ?_
    exact builds_decompileOnto hargs (.unary u htx) hs fun a ha => (has a ha).after hs.precedes
  | lambda p e =>
    intro s hr
    obtain ⟨hc, has⟩ := over_appAll.1 hr
    rw [decompileSpine]
    have hp : Renders F p (decompileSpine p []) := ih p [] (by simp only [argsWeight, weight]; omega)
    have he : Renders F e (decompileSpine e []) := ih e [] (by simp only [argsWeight, weight]; omega)
    refine .run hp hc.2.1 fun ns tp s₁ htp h₁ => ?_
    refine .run he (hc.2.2.after h₁.precedes) fun ms te s₂ hte h₂ => ?_
    have hs := h₁.append h₂
    exact builds_decompileOnto hargs (.lambda htp hte) hs fun a ha => (has a ha).after hs.precedes
  | letrec p d e =>
    intro s hr
    obtain ⟨hc, has⟩ := over_appAll.1 hr
    rw [decompileSpine]
    have hp : Renders F p (decompileSpine p []) := ih p [] (by simp only [argsWeight, weight]; omega)
    have hd : Renders F d (decompileSpine d []) := ih d [] (by simp only [argsWeight, weight]; omega)
    have he : Renders F e (decompileSpine e []) := ih e [] (by simp only [argsWeight, weight]; omega)
    refine .run hp hc.2.1 fun ns tp s₁ htp h₁ => ?_
    refine .run hd (hc.2.2.1.after h₁.precedes) fun ms td s₂ htd h₂ => ?_
    refine .run he (hc.2.2.2.after (h₁.append h₂).precedes) fun ks te s₃ hte h₃ => ?_
    have hs := h₁.append (h₂.append h₃)
    exact builds_decompileOnto hargs (.letrec htp htd hte) hs fun a ha => (has a ha).after hs.precedes

/-- Code can be decompiled with any supply that avoids its names. -/
theorem over_code {F : Prop} {c : Term} {s : NameSupply} (hs : ∀ n ∈ c.names, n ∈ s.avoid)
    (h : F ∨ c.WellFormed ∧ ∀ a ∈ c.heads, a ≠ .const .a ∧ a ≠ .const .nil) : c.Over (s.code F) := by
  refine over_of_heads ?_ (fun n hn => .inl (hs n (mem_names.2 hn))) (h.imp_right And.left)
  exact fun a ha => h.imp_right fun h => h.2 a ha

/-- What code is decompiled to goes by the rules, with the names that have been drawn. -/
theorem decompiles_of_decompileWith {c t : Term} {s : NameSupply} (hs : ∀ n ∈ c.names, n ∈ s.avoid)
    (h : (c.decompileWith.runWith s).1 = .ok t) :
    ∃ ns, Decompiles c ns t ∧ s.Supplies ns (c.decompileWith.runWith s).2 := by
  have hrender := renders_decompileSpine True c [] s (over_code hs (.inl trivial))
  obtain ⟨-, ns, t', rfl, ht, hsupply⟩ := hrender.of_ok (Prod.ext h rfl)
  exact ⟨ns, ht, hsupply⟩

theorem decompiles_of_decompileRaw {c t : Term} (h : c.decompileRaw = .ok t) : ∃ ns, Decompiles c ns t := by
  obtain ⟨ns, ht, -⟩ := decompiles_of_decompileWith (s := .avoiding c.names) (fun _ => id) h
  exact ⟨ns, ht⟩

/-- Code without `A` and `NIL` can be decompiled. -/
theorem exists_decompileRaw {c : Term} (hc : c.WellFormed)
    (hh : ∀ a ∈ c.heads, a ≠ .const .a ∧ a ≠ .const .nil) : ∃ t, c.decompileRaw = .ok t := by
  have hrender := renders_decompileSpine False c [] (.avoiding c.names) (over_code (fun _ => id) (.inr ⟨hc, hh⟩))
  cases h : c.decompileRaw with
  | ok t => exact ⟨t, rfl⟩
  | error e => exact (hrender.of_error (Prod.ext h rfl)).elim

end Term

end Combinatory
