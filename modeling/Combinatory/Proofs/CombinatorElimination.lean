import Combinatory.Proofs.DecompilationRules
import Combinatory.Proofs.Simplification

/-!
# Elimination of combinators

Decompilation ends with a term for all combinator code without `A`, no combinator is left in it, and it has no free
variable that the code does not have.

## The proof

Each statement about the decompiled term is an induction on the rules of `Decompiles`. What they need of the code is
that it is made of some vocabulary, and the rules keep that: `Contracts.over`, `Awaits.over` and `Shares.over`.

* Of the heads of code those are left that `Head.Survives` lists, and `Head.created` are new (`Decompiles.heads`).
* A free variable of the decompiled term is a name of the code (`Decompiles.name_of_mem`).
* A binder takes one variable, which may be quoted, so the term can be simplified (`Decompiles.tidy`).

Simplification moves heads around and drops some of them, but changes none: a nameless form has the heads of its
terms, and only variables are replaced.

## What is proved

* `exists_decompile`: code over the vocabulary of combinators, without `A`, has a decompiled term. Its heads are those
  of `Head.decompiledVocabulary`, and its free variables are names of the code.
-/

namespace Combinatory

/-! ### Heads under simplification -/

namespace Nameless

/-- The heads of a nameless form, from left to right. -/
def heads : Nameless → List Head
  | .name _ => []
  | .const o => [.const o]
  | .free _ | .bound _ => [.var]
  | .unary u x => .unary u :: x.heads
  | .binary b x y => .binary b :: (x.heads ++ y.heads)
  | .lambda _ p e => .lambda :: (p.heads ++ e.heads)
  | .letrec _ p d e => .letrec :: (p.heads ++ (d.heads ++ e.heads))

theorem forall_heads_substAll {P : Head → Prop} {σ : String → Nameless} (hσ : ∀ n, ∀ a ∈ (σ n).heads, P a)
    {s : Nameless} (hs : ∀ a ∈ s.heads, P a) : ∀ a ∈ (s.substAll σ).heads, P a := by
  induction s with
  | free n => exact hσ n
  | name _ | const _ | bound _ => exact hs
  | unary u x ih =>
    obtain ⟨hu, hx⟩ := List.forall_mem_cons.1 hs
    exact List.forall_mem_cons.2 ⟨hu, ih hx⟩
  | binary b x y ihx ihy =>
    obtain ⟨hb, hxy⟩ := List.forall_mem_cons.1 hs
    obtain ⟨hx, hy⟩ := List.forall_mem_append.1 hxy
    exact List.forall_mem_cons.2 ⟨hb, List.forall_mem_append.2 ⟨ihx hx, ihy hy⟩⟩
  | lambda k p e _ ihe =>
    obtain ⟨hl, hpe⟩ := List.forall_mem_cons.1 hs
    obtain ⟨hp, he⟩ := List.forall_mem_append.1 hpe
    exact List.forall_mem_cons.2 ⟨hl, List.forall_mem_append.2 ⟨hp, ihe he⟩⟩
  | letrec k p d e _ ihd ihe =>
    obtain ⟨hl, hpde⟩ := List.forall_mem_cons.1 hs
    obtain ⟨hp, hde⟩ := List.forall_mem_append.1 hpde
    obtain ⟨hd, he⟩ := List.forall_mem_append.1 hde
    exact List.forall_mem_cons.2 ⟨hl, List.forall_mem_append.2 ⟨hp, List.forall_mem_append.2 ⟨ihd hd, ihe he⟩⟩⟩

end Nameless

namespace Term

theorem heads_nameless (t : Term) (Γ : List String) : (t.nameless Γ).heads = t.heads := by
  induction t generalizing Γ with
  | name _ | const _ => rfl
  | var n =>
    rw [nameless_var, Nameless.resolve]
    split <;> rfl
  | unary _ x ih => simp only [nameless, Nameless.heads, heads, ih]
  | binary _ x y ihx ihy => simp only [nameless, Nameless.heads, heads, ihx, ihy]
  | lambda p e ihp ihe => simp only [nameless, Nameless.heads, heads, ihp, ihe]
  | letrec p d e ihp ihd ihe => simp only [nameless, Nameless.heads, heads, ihp, ihd, ihe]

theorem AlphaEq.heads_eq {t u : Term} (h : AlphaEq t u) : t.heads = u.heads := by
  rw [← heads_nameless t [], h, heads_nameless]

section

variable {P : Head → Prop}

theorem forall_heads_substitute (hvar : P .var) {n : String} {d t : Term} (ht : t.Tidy) (hd : ∀ a ∈ d.heads, P a)
    (hh : ∀ a ∈ t.heads, P a) : ∀ a ∈ (substitute n d t).heads, P a := by
  rw [← heads_nameless _ [], nameless_substitute_nil ht, Nameless.subst]
  refine Nameless.forall_heads_substAll (fun m => ?_) (by rwa [heads_nameless])
  by_cases hm : m = n
  · subst hm
    rwa [Function.update_self, heads_nameless]
  · rw [Function.update_of_ne hm]
    exact List.forall_mem_singleton.2 hvar

theorem Simplifies.forall_heads (hvar : P .var) {t u : Term} (h : Simplifies t u) (ht : t.Tidy)
    (hh : ∀ a ∈ t.heads, P a) : ∀ a ∈ u.heads, P a := by
  induction h with
  | refl => exact hh
  | trans h₁ _ ih₁ ih₂ => exact ih₂ (h₁.tidy ht) (ih₁ ht hh)
  | app _ _ ihx ihy =>
    rw [tidy_binary] at ht
    rw [heads, List.forall_mem_cons, List.forall_mem_append] at hh ⊢
    exact ⟨hh.1, ihx ht.1 hh.2.1, ihy ht.2 hh.2.2⟩
  | topApp | botApp | topJoin | joinBot =>
    rw [heads, List.forall_mem_cons, List.forall_mem_append] at hh
    exact hh.2.1
  | joinTop | botJoin =>
    rw [heads, List.forall_mem_cons, List.forall_mem_append] at hh
    exact hh.2.2
  | eta _ =>
    simp only [heads, List.forall_mem_cons, List.forall_mem_append] at hh
    exact hh.2.2.2.1
  | beta n e a =>
    rw [tidy_binary, tidy_lambda] at ht
    simp only [heads, List.forall_mem_cons, List.forall_mem_append] at hh
    exact forall_heads_substitute hvar ht.1.2 hh.2.2 hh.2.1.2.2

theorem forall_heads_simplify (hvar : P .var) {t r : Term} (ht : t.Tidy) (h : t.simplify = .ok r)
    (hh : ∀ a ∈ t.heads, P a) : ∀ a ∈ r.heads, P a := by
  have hs := simplifies_normalize t
  have hform := (canonicalForm_canonical (hs.wellFormed ht.1) h).2
  rw [hform.alphaEq.heads_eq]
  exact hs.forall_heads hvar ht hh

end

theorem mem_freeNames_of_simplify {t r : Term} (ht : t.Tidy) (h : t.simplify = .ok r) {n : String}
    (hn : n ∈ r.freeNames) : n ∈ t.freeNames := by
  have hs := simplifies_normalize t
  have hform := (canonicalForm_canonical (hs.wellFormed ht.1) h).2
  rw [hform.alphaEq.freeNames_eq, mem_freeNames] at hn
  exact mem_freeNames.2 (hs.mem_freeOccurrences ht hn)

end Term

/-! ### What the rules leave -/

namespace Head

/-- Decompilation leaves the head where it stands. -/
def Survives : Head → Prop
  | .const o => o = .hole ∨ o = .top ∨ o = .bot
  | .binary b => b ≠ .comp
  | .var | .unary _ | .lambda | .letrec => True

instance : DecidablePred Survives
  | .const o => inferInstanceAs (Decidable (o = .hole ∨ o = .top ∨ o = .bot))
  | .binary b => inferInstanceAs (Decidable (b ≠ .comp))
  | .var | .unary _ | .lambda | .letrec => inferInstanceAs (Decidable True)

/-- The heads that decompilation puts into terms. -/
def created : List Head :=
  [.var, .unary .quote, .lambda, .letrec, .binary .app, .binary .join, .binary .rand, .binary .less, .binary .nless,
    .binary .equal]

/-- The heads of decompiled combinator code. -/
def decompiledVocabulary : List Head :=
  [.var, .lambda, .letrec, .binary .app, .binary .join, .binary .rand, .unary .quote, .binary .less, .binary .nless,
    .binary .equal, .const .hole, .const .top, .const .bot]

/-- What survives of combinator code, and what decompilation creates, are the heads of decompiled code. -/
theorem mem_decompiledVocabulary {a : Head} (hs : a.Survives) (ha : a ∈ combinatorVocabulary ∨ a ∈ created) :
    a ∈ decompiledVocabulary := by
  have hlist : ∀ a ∈ combinatorVocabulary ++ created, a.Survives → a ∈ decompiledVocabulary := by decide
  exact hlist a (List.mem_append.2 ha) hs

end Head

namespace Vocabulary

/-- All heads, and the given names. -/
def ofNames (U : String → Prop) : Vocabulary := ⟨fun _ => True, U, True⟩

theorem closed_ofNames {U : String → Prop} : (ofNames U).Closed := fun _ _ => trivial

/-- All heads but the binders. -/
def binderFree : Vocabulary := ⟨fun a => a ≠ .lambda ∧ a ≠ .letrec, fun _ => True, False⟩

theorem closed_binderFree : binderFree.Closed := by
  show ∀ a ∈ _, a ≠ Head.lambda ∧ a ≠ .letrec
  decide

/-- The heads of which `P` holds, and those that do not survive. -/
def surviving (P : Head → Prop) : Vocabulary := ⟨fun a => a.Survives → P a, fun _ => True, True⟩

theorem closed_surviving {P : Head → Prop} (hP : ∀ a ∈ Head.created, P a) : (surviving P).Closed := by
  simp only [Head.created, List.forall_mem_cons] at hP
  simp [Closed, surviving, Head.Survives, hP]

end Vocabulary

namespace Term

open Vocabulary

theorem BinderFree.not_mem_heads {c : Term} (h : c.BinderFree) : Head.lambda ∉ c.heads ∧ Head.letrec ∉ c.heads := by
  induction c with
  | name _ | const _ | var _ => simp [heads]
  | unary _ x ih => simpa [heads] using ih h
  | binary _ x y ihx ihy =>
    have hx := ihx h.1
    have hy := ihy h.2
    simp [heads, hx, hy]
  | lambda _ _ | letrec _ _ _ => exact h.elim

theorem BinderFree.over {c : Term} (hb : c.BinderFree) (hc : c.WellFormed) : c.Over binderFree := by
  obtain ⟨hlambda, hletrec⟩ := hb.not_mem_heads
  refine over_of_heads (fun a ha => ⟨?_, ?_⟩) (fun _ _ => trivial) (.inr hc)
  · rintro rfl
    exact hlambda ha
  · rintro rfl
    exact hletrec ha

/-- The pattern binds one variable, which may be quoted. -/
structure SingleVariable (p : Term) (y : String) : Prop where
  /-- It has the name of the variable. -/
  payloads_eq : p.payloads = [y]
  /-- There is no binder in it. -/
  tidy : p.WellFormed ∧ p.BinderFree
  /-- It has no other heads. -/
  heads : ∀ a ∈ p.heads, a = .var ∨ a = .unary .quote

theorem singleVariable_var (y : String) : SingleVariable (.var y) y :=
  ⟨rfl, ⟨trivial, trivial⟩, List.forall_mem_singleton.2 (.inl rfl)⟩

theorem singleVariable_quote (y : String) : SingleVariable (.quote (.var y)) y :=
  ⟨rfl, ⟨trivial, trivial⟩, List.forall_mem_cons.2 ⟨.inr rfl, List.forall_mem_singleton.2 (.inl rfl)⟩⟩

theorem Awaits.pattern {c : Term} {q : String → Term} (h : Awaits c q) (y : String) : SingleVariable (q y) y := by
  cases h with
  | combinator o as _ => exact singleVariable_var y
  | comparison _ | comparisonWith x _ => exact singleVariable_quote y

theorem Shares.pattern {c a : Term} {q d : String → Term} (h : Shares c a q d) (v : String) :
    SingleVariable (q v) v := by
  cases h with
  | w x a | s x y a => exact singleVariable_var v
  | operand a _ | left a y _ | right x a _ => exact singleVariable_quote v

namespace Decompiles

variable {c t : Term} {ns : List String}

/-- The free variables of the decompiled term are names of the code. -/
theorem name_of_mem {U : String → Prop} (h : Decompiles c ns t) (hc : c.Over (ofNames U)) :
    ∀ n ∈ t.freeOccurrences, U n := by
  induction h generalizing U with
  | var n => exact List.forall_mem_singleton.2 hc
  | hole | absorb _ _ => exact List.forall_mem_nil _
  | unary _ _ ih => exact ih hc.2
  | binary _ _ _ ihx ihy => exact List.forall_mem_append.2 ⟨ihx hc.of_binary.1, ihy hc.of_binary.2⟩
  | lambda _ _ _ ihe => exact fun n hn => ihe hc.2.2 n (List.mem_filter.1 hn).1
  | letrec _ _ _ _ ihd ihe =>
    intro n hn
    exact List.forall_mem_append.2 ⟨ihd hc.2.2.1, ihe hc.2.2.2⟩ n (List.mem_filter.1 hn).1
  | contract as h _ ih =>
    rw [over_appAll] at hc
    exact ih (over_appAll.2 ⟨h.over closed_ofNames hc.1, hc.2⟩)
  | @abstract c t q y _ hq _ _ ih =>
    -- the new variable is allowed below its binder only
    have hc' : c.Over (ofNames fun m => U m ∨ m = y) := hc.mono (fun _ => id) (fun _ => .inl) id
    intro n hn
    simp only [freeOccurrences, (hq.pattern y).payloads_eq, List.mem_filter, List.mem_singleton,
      decide_eq_true_eq] at hn
    exact (ih ⟨hc', hq.over closed_ofNames (.inr rfl)⟩ n hn.1).resolve_right hn.2
  | @share c a t u q d v _ _ hsh _ _ _ iha ihd =>
    have hc' : c.Over (ofNames fun m => U m ∨ m = v) := hc.mono (fun _ => id) (fun _ => .inl) id
    obtain ⟨ha, hd⟩ := hsh.over closed_ofNames hc'
    intro n hn
    simp only [freeOccurrences, (hsh.pattern v).payloads_eq, List.mem_filter, List.mem_append, List.mem_singleton,
      decide_eq_true_eq] at hn
    exact (hn.1.elim (iha ha n) (ihd (hd v (.inr rfl)) n)).resolve_right hn.2
  | fixpoint _ _ _ _ ih =>
    intro n hn
    simp only [Term.fixpoint, freeOccurrences, payloads, List.mem_filter, List.mem_append, List.mem_singleton,
      decide_eq_true_eq] at hn
    obtain ⟨⟨hn | hn | hn, hz⟩ | hn, hy⟩ := hn
    · exact ih hc.2 n hn
    · exact absurd hn hy
    · exact absurd hn hz
    · exact absurd hn hy

/-- Code without binders is decompiled to a term that can be simplified. -/
theorem tidy (h : Decompiles c ns t) (hc : c.Over binderFree) : t.Tidy ∧ t.LinearBinders := by
  induction h with
  | var n => exact ⟨tidy_var n, trivial⟩
  | hole | absorb _ _ => exact ⟨tidy_const _, trivial⟩
  | unary _ _ ih => exact ih hc.2
  | binary _ _ _ ihx ihy =>
    obtain ⟨hx, hxl⟩ := ihx hc.of_binary.1
    obtain ⟨hy, hyl⟩ := ihy hc.of_binary.2
    exact ⟨tidy_binary.2 ⟨hx, hy⟩, hxl, hyl⟩
  | lambda => exact absurd rfl hc.1.1
  | letrec => exact absurd rfl hc.1.2
  | contract as h _ ih =>
    rw [over_appAll] at hc
    exact ih (over_appAll.2 ⟨h.over closed_binderFree hc.1, hc.2⟩)
  | @abstract c t q y _ hq _ _ ih =>
    obtain ⟨ht, hl⟩ := ih ⟨hc, hq.over closed_binderFree trivial⟩
    have hp := hq.pattern y
    exact ⟨tidy_lambda.2 ⟨hp.tidy, ht⟩, by simp [hp.payloads_eq], hl⟩
  | @share c a t u q d v _ _ hsh _ _ _ iha ihd =>
    obtain ⟨ha, hd⟩ := hsh.over closed_binderFree hc
    obtain ⟨ht, htl⟩ := iha ha
    obtain ⟨hu, hul⟩ := ihd (hd v trivial)
    have hp := hsh.pattern v
    exact ⟨tidy_letrec.2 ⟨hp.tidy, ht, hu⟩, by simp [hp.payloads_eq], htl, hul⟩
  | @fixpoint x t y z _ _ _ _ _ ih =>
    obtain ⟨ht, hl⟩ := ih hc.2
    have hy := (singleVariable_var y).tidy
    have hz := (singleVariable_var z).tidy
    refine ⟨?_, ?_⟩
    · exact tidy_letrec.2 ⟨hy, tidy_lambda.2 ⟨hz, tidy_binary.2 ⟨ht, by simp⟩⟩, tidy_var y⟩
    · exact ⟨List.nodup_singleton y, ⟨List.nodup_singleton z, hl, trivial, trivial⟩, trivial⟩

/-- The heads of the decompiled term survive from the code, or are created. -/
theorem heads {P : Head → Prop} (hP : ∀ a ∈ Head.created, P a) (h : Decompiles c ns t)
    (hc : c.Over (surviving P)) : ∀ a ∈ t.heads, a.Survives ∧ P a := by
  have hV := closed_surviving hP
  have hpattern {p : Term} {y : String} (hp : SingleVariable p y) : ∀ a ∈ p.heads, a.Survives ∧ P a := by
    intro a ha
    obtain rfl | rfl := hp.heads a ha <;> exact ⟨trivial, hP _ (by decide)⟩
  have hvar (n : String) : ∀ a ∈ (Term.var n).heads, a.Survives ∧ P a := hpattern (singleVariable_var n)
  have happ : (Head.binary .app).Survives ∧ P (.binary .app) := ⟨by decide, hP _ (by decide)⟩
  have hlambda : Head.lambda.Survives ∧ P .lambda := ⟨trivial, hP _ (by decide)⟩
  have hletrec : Head.letrec.Survives ∧ P .letrec := ⟨trivial, hP _ (by decide)⟩
  induction h with
  | var n => exact hvar n
  | hole => exact List.forall_mem_singleton.2 ⟨.inl rfl, hc (.inl rfl)⟩
  | absorb as ho => exact List.forall_mem_singleton.2 ⟨.inr ho, (over_appAll.1 hc).1 (.inr ho)⟩
  | unary u _ ih => exact List.forall_mem_cons.2 ⟨⟨trivial, hc.1 trivial⟩, ih hc.2⟩
  | @binary b x y _ _ _ _ hb _ _ ihx ihy =>
    refine List.forall_mem_cons.2 ⟨⟨hb, ?_⟩, List.forall_mem_append.2 ⟨ihx hc.of_binary.1, ihy hc.of_binary.2⟩⟩
    by_cases hbapp : b = .app
    · exact hbapp ▸ happ.2
    · exact ((over_binary hbapp).1 hc).1 hb
  | lambda _ _ ihp ihe =>
    exact List.forall_mem_cons.2 ⟨hlambda, List.forall_mem_append.2 ⟨ihp hc.2.1, ihe hc.2.2⟩⟩
  | letrec _ _ _ ihp ihd ihe =>
    exact List.forall_mem_cons.2 ⟨hletrec, List.forall_mem_append.2 ⟨ihp hc.2.1,
      List.forall_mem_append.2 ⟨ihd hc.2.2.1, ihe hc.2.2.2⟩⟩⟩
  | contract as h _ ih =>
    rw [over_appAll] at hc
    exact ih (over_appAll.2 ⟨h.over hV hc.1, hc.2⟩)
  | @abstract c t q y _ hq _ _ ih =>
    have ht := ih ⟨hc, hq.over hV trivial⟩
    exact List.forall_mem_cons.2 ⟨hlambda, List.forall_mem_append.2 ⟨hpattern (hq.pattern y), ht⟩⟩
  | @share c a t u q d v _ _ hsh _ _ _ iha ihd =>
    obtain ⟨ha, hd⟩ := hsh.over hV hc
    exact List.forall_mem_cons.2 ⟨hletrec, List.forall_mem_append.2 ⟨hpattern (hsh.pattern v),
      List.forall_mem_append.2 ⟨iha ha, ihd (hd v trivial)⟩⟩⟩
  | @fixpoint x t y z _ _ _ _ _ ih =>
    simp only [Term.fixpoint, Term.heads, List.forall_mem_cons, List.forall_mem_append] at hvar ⊢
    have hname := hvar y
    exact ⟨hletrec, hname, ⟨hlambda, hname, happ, ih hc.2, happ, hname, hname⟩, hname⟩

end Decompiles

/-- **Decompilation eliminates combinators**: code over the vocabulary of combinators, without `A`, is decompiled to a
term without combinators, whose free variables are names of the code. -/
theorem exists_decompile {c : Term} (hc : c.WellFormed) (hv : ∀ a ∈ c.heads, a ∈ Head.combinatorVocabulary)
    (ha : Head.const .a ∉ c.heads) :
    ∃ t, c.decompile = .ok t ∧ (∀ a ∈ t.heads, a ∈ Head.decompiledVocabulary) ∧ ∀ n ∈ t.freeNames, n ∈ c.names := by
  have hrules : ∀ a ∈ c.heads, a ≠ .const .a ∧ a ≠ .const .nil := by
    intro a hac
    refine ⟨fun e => ha (e ▸ hac), ?_⟩
    rintro rfl
    exact absurd (hv _ hac) (by decide)
  have hbinders : c.Over binderFree := by
    refine over_of_heads (fun a hac => ⟨?_, ?_⟩) (fun _ _ => trivial) (.inr hc) <;>
    · rintro rfl
      exact absurd (hv _ hac) (by decide)
  obtain ⟨t, ht⟩ := exists_decompileRaw hc hrules
  obtain ⟨ns, hd⟩ := decompiles_of_decompileRaw ht
  obtain ⟨htidy, hlinear⟩ := hd.tidy hbinders
  obtain ⟨r, hr⟩ := exists_simplify htidy hlinear
  refine ⟨r, bind_eq_ok.2 ⟨t, ht, hr⟩, ?_, fun n hn => ?_⟩
  · refine forall_heads_simplify (by decide) htidy hr fun a hat => ?_
    have hcode : c.Over (surviving fun a => a ∈ Head.combinatorVocabulary ∨ a ∈ Head.created) :=
      over_of_heads (fun a hac _ => .inl (hv a hac)) (fun _ _ => trivial) (.inl trivial)
    obtain ⟨hs, hmem⟩ := hd.heads (fun _ => .inr) hcode a hat
    exact Head.mem_decompiledVocabulary hs hmem
  · have hcode : c.Over (ofNames (· ∈ c.payloads)) :=
      over_of_heads (fun _ _ => trivial) (fun _ => id) (.inl trivial)
    exact mem_names.2 (hd.name_of_mem hcode n (mem_freeNames.1 (mem_freeNames_of_simplify htidy hr hn)))

/-- A comparison with an operand that is not quoted, a derived combinator, and an operand too few. -/
theorem exists_decompile_partial :
    ∃ t, (app (app (.const .s) (app (.const .qless) (.var "x"))) (.const .p)).decompile = .ok t ∧
      (∀ a ∈ t.heads, a ∈ Head.decompiledVocabulary) ∧ ∀ n ∈ t.freeNames, n = "x" := by
  obtain ⟨t, ht, hheads, hfree⟩ := exists_decompile
    (c := app (app (.const .s) (app (.const .qless) (.var "x"))) (.const .p))
    (by simp [WellFormed]) (by decide) (by decide)
  exact ⟨t, ht, hheads, fun n hn => by simpa [payloads] using hfree n hn⟩

end Term

end Combinatory
