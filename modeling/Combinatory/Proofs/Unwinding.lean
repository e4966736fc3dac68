import Combinatory.Proofs.DecompilationRules
import Combinatory.Proofs.Simplification

/-!
# Code that copies nothing

Code that is made of variables, application, composition and the combinators `I`, `K`, `B`, `C` and `CB` is decompiled
without choice: the head of a spine is contracted until it is a variable, or a combinator that lacks an operand and
takes it by an abstraction.

## The model

`Unwinds h as k bs` is one contraction of the spine `h` applied to `as`. `ReadsBack U Γ f as s` says that `f` applied to
`as` is decompiled to a term of the form `s` in the scope `Γ`; the names `U` are taken, so an abstraction may have any
name but these. What is applied, the `Focus`, is code, or the form of what has been decompiled of a spine already.

Code `x` is read as `y` is (`ReadsAs x y`) if this is so in all spines and scopes. The order is kept by application and
composition (`ReadsAs.app`, `ReadsAs.comp`): in a spine that is read, parts may be replaced by parts that are read in
the same way. A contraction at the head goes along with it.

## What is proved

* `ReadsBack.ensures`: decompilation finds what is read.
* `ReadsBack.abstract_or_eta`: code that is read with a new variable as its last argument is read as an abstraction
  without it, unless the abstraction is an η-redex.
-/

namespace Combinatory

open Nameless

/-- The combinators that use each operand once at most. -/
def Const.affine : List Const := [.i, .k, .b, .c]

namespace Term

/-! ### Unwinding a spine -/

/-- One contraction at the head of a spine. -/
inductive Unwinds : Term → List Term → Term → List Term → Prop where
  | app (x y : Term) (as : List Term) : Unwinds (.app x y) as x (y :: as)
  | comp (x y : Term) (as : List Term) : Unwinds (.comp x y) as (.const .b) (x :: y :: as)
  | cb (as : List Term) : Unwinds (.const .cb) as (.const .c) (.const .b :: as)
  | i (x : Term) (as : List Term) : Unwinds (.const .i) (x :: as) x as
  | k (x y : Term) (as : List Term) : Unwinds (.const .k) (x :: y :: as) x as
  | b (x y z : Term) (as : List Term) : Unwinds (.const .b) (x :: y :: z :: as) x (.app y z :: as)
  | c (x y z : Term) (as : List Term) : Unwinds (.const .c) (x :: y :: z :: as) x (z :: y :: as)

namespace Unwinds

variable {h k h' k' : Term} {as bs as' bs' : List Term}

theorem decompileSpine_eq (hu : Unwinds h as k bs) : decompileSpine h as = decompileSpine k bs := by
  cases hu with
  | app x y => rw [decompileSpine]
  | comp x y => rw [decompileSpine]
  | cb => rw [decompileSpine, reversedComposition, decompileSpine]
  | i x | k x y | b x y z | c x y z => rw [decompileSpine]

theorem append (hu : Unwinds h as k bs) (cs : List Term) : Unwinds h (as ++ cs) k (bs ++ cs) := by
  cases hu with
  | app _ y => exact .app _ y _
  | comp x y => exact .comp x y _
  | cb => exact .cb _
  | i => exact .i _ _
  | k _ y => exact .k _ y _
  | b _ y z => exact .b _ y z _
  | c _ y z => exact .c _ y z _

theorem weight_lt (hu : Unwinds h as k bs) : k.weight + argsWeight bs < h.weight + argsWeight as := by
  cases hu <;> simp only [weight, argsWeight, Const.weight, Binary.weight] <;> omega

theorem unique (hu : Unwinds h as k bs) (hu' : Unwinds h as k' bs') : k = k' ∧ bs = bs' := by
  cases hu <;> cases hu' <;> exact ⟨rfl, rfl⟩

/-- A combinator that is contracted has its operands. -/
theorem operands_le {o : Const} (hu : Unwinds (.const o) as k bs) : o.operands ≤ as.length := by
  cases hu <;> simp [Const.operands]

end Unwinds

/-- A combinator that lacks an operand takes it by an abstraction. -/
theorem decompileSpine_await {o : Const} (ho : o ∈ Const.affine) {as : List Term} (h : as.length < o.operands) :
    decompileSpine (.const o) as = do
      let y ← Fresh.name
      let t ← decompileSpine (.const o) (as ++ [.var y])
      return .lambda (.var y) t := by
  simp only [Const.affine, List.mem_cons, List.not_mem_nil, or_false] at ho
  obtain rfl | rfl | rfl | rfl := ho
  · rcases as with _ | ⟨x, as⟩
    · simp [decompileSpine, decompileOnto]
    · simp [Const.operands] at h
  · rcases as with _ | ⟨x, _ | ⟨y, as⟩⟩
    · simp [decompileSpine, decompileOnto]
    · simp [decompileSpine]
    · simp only [Const.operands, List.length_cons] at h
      omega
  · rcases as with _ | ⟨x, _ | ⟨y, _ | ⟨z, as⟩⟩⟩
    · simp [decompileSpine, decompileOnto]
    · simp [decompileSpine]
    · simp [decompileSpine]
    · simp only [Const.operands, List.length_cons] at h
      omega
  · rcases as with _ | ⟨x, _ | ⟨y, _ | ⟨z, as⟩⟩⟩
    · simp [decompileSpine, decompileOnto]
    · simp [decompileSpine]
    · simp [decompileSpine]
    · simp only [Const.operands, List.length_cons] at h
      omega

/-! ### Reading code -/

/-- What a spine applies: code, or the form of what has been decompiled. -/
inductive Focus where
  /-- Code. -/
  | code (h : Term)
  /-- The form of a decompiled term. -/
  | form (s : Nameless)

/-- In the scope `Γ`, the spine is decompiled to a term of the form `s`. The names `U` are taken. -/
inductive ReadsBack : List String → List String → Focus → List Term → Nameless → Prop where
  | done {U Γ : List String} (s : Nameless) : ReadsBack U Γ (.form s) [] s
  | arg {U Γ : List String} {r s t : Nameless} {a : Term} {as : List Term} : ReadsBack U Γ (.code a) [] s →
    ReadsBack U Γ (.form (.binary .app r s)) as t → ReadsBack U Γ (.form r) (a :: as) t
  | var {U Γ : List String} {n : String} {as : List Term} {s : Nameless} : ReadsBack U Γ (.form (resolve Γ n)) as s →
    ReadsBack U Γ (.code (.var n)) as s
  | unwind {U Γ : List String} {h k : Term} {as bs : List Term} {s : Nameless} : Unwinds h as k bs →
    ReadsBack U Γ (.code k) bs s → ReadsBack U Γ (.code h) as s
  | abstract {U Γ : List String} {o : Const} {as : List Term} {s : Nameless} : o ∈ Const.affine →
    as.length < o.operands → (∀ y ∉ U, ReadsBack (y :: U) (y :: Γ) (.code (.const o)) (as ++ [.var y]) s) →
    ReadsBack U Γ (.code (.const o)) as (.lambda 1 (.bound 0) s)

/-- Decompiles what a spine applies. -/
def Focus.Decompiled (Γ : List String) (as : List Term) (x : Fresh Term) : Focus → Prop
  | .code h => x = decompileSpine h as
  | .form s => ∃ t : Term, t.nameless Γ = s ∧ x = decompileOnto t as

/-- **Decompilation finds what is read**, if no name is drawn that is taken. -/
theorem ReadsBack.ensures {U Γ : List String} {f : Focus} {as : List Term} {s : Nameless} (h : ReadsBack U Γ f as s)
    {x : Fresh Term} (hx : f.Decompiled Γ as x) {σ : NameSupply} (hU : ∀ n ∈ U, σ.Used n) :
    Fresh.Ensures σ x (fun t _ => t.nameless Γ = s) fun _ => False := by
  induction h generalizing x σ with
  | done s =>
    obtain ⟨t, ht, rfl⟩ := hx
    rw [decompileOnto]
    exact .pure ht
  | arg _ _ iha ih =>
    obtain ⟨t, ht, rfl⟩ := hx
    rw [decompileOnto]
    refine .bind (iha rfl hU) fun u σ' hσ hu => ?_
    refine ih ⟨.app t u, ?_, rfl⟩ fun n hn => (hU n hn).mono hσ
    rw [nameless, ht, hu]
  | var _ ih =>
    obtain rfl := hx
    rw [decompileSpine]
    exact ih ⟨_, rfl, rfl⟩ hU
  | unwind hu _ ih =>
    obtain rfl := hx
    rw [hu.decompileSpine_eq]
    exact ih rfl hU
  | abstract ho hl _ ih =>
    obtain rfl := hx
    rw [decompileSpine_await ho hl]
    refine .bind .name fun y σ' hσ hy => ?_
    have hyU : y ∉ _ := fun h => hy.not_used List.mem_cons_self (hU y h)
    have hU' : ∀ n ∈ y :: _, σ'.Used n :=
      List.forall_mem_cons.2 ⟨hy.used List.mem_cons_self, fun n hn => (hU n hn).mono hσ⟩
    refine .bind (ih y hyU rfl hU') fun t σ'' _ ht => .pure ?_
    rw [nameless_lambda_var, ht]

/-- A spine that is unwound is read as before. -/
theorem ReadsBack.of_unwinds {U Γ : List String} {h k : Term} {as bs : List Term} {s : Nameless}
    (hu : Unwinds h as k bs) (hr : ReadsBack U Γ (.code h) as s) : ReadsBack U Γ (.code k) bs s := by
  cases hr with
  | var => cases hu
  | unwind hu' hr =>
    obtain ⟨rfl, rfl⟩ := hu.unique hu'
    exact hr
  | abstract _ hl _ => exact absurd hu.operands_le (Nat.not_le.2 hl)

/-! ### Replacing parts of a spine -/

/-- Whatever `y` is read as in some spine, `x` is. -/
def ReadsAs (x y : Term) : Prop :=
  ∀ U Γ as s, ReadsBack U Γ (.code y) as s → ReadsBack U Γ (.code x) as s

/-- The first code is the second one with parts replaced that are read in the same way. -/
inductive Replaces : Term → Term → Prop where
  | part {x y : Term} : ReadsAs x y → Replaces x y
  | app {x x' y y' : Term} : Replaces x x' → Replaces y y' → Replaces (.app x y) (.app x' y')
  | comp {x x' y y' : Term} : Replaces x x' → Replaces y y' → Replaces (.comp x y) (.comp x' y')

namespace ReadsAs

variable {x x' y y' z : Term}

theorem refl (x : Term) : ReadsAs x x := fun _ _ _ _ => id

theorem trans (h : ReadsAs x y) (h' : ReadsAs y z) : ReadsAs x z := fun U Γ as s hr => h U Γ as s (h' U Γ as s hr)

end ReadsAs

theorem Replaces.refl (x : Term) : Replaces x x := .part (.refl x)

theorem forall₂_replaces_refl (as : List Term) : List.Forall₂ Replaces as as := by
  induction as with
  | nil => exact .nil
  | cons a as ih => exact .cons (.refl a) ih

/-- A spine with replaced arguments unwinds in the same way. -/
theorem Unwinds.replaces {h k : Term} {as bs cs : List Term} (hu : Unwinds h as k bs)
    (hcs : List.Forall₂ Replaces cs as) :
    ∃ l ds, Unwinds h cs l ds ∧ Replaces l k ∧ List.Forall₂ Replaces ds bs := by
  cases hu with
  | app _ y => exact ⟨_, _, .app _ y cs, .refl _, .cons (.refl y) hcs⟩
  | comp x y => exact ⟨_, _, .comp x y cs, .refl _, .cons (.refl x) (.cons (.refl y) hcs)⟩
  | cb => exact ⟨_, _, .cb cs, .refl _, .cons (.refl _) hcs⟩
  | i =>
    obtain _ | ⟨hx, hcs⟩ := hcs
    exact ⟨_, _, .i _ _, hx, hcs⟩
  | k =>
    obtain _ | ⟨hx, _ | ⟨hy, hcs⟩⟩ := hcs
    exact ⟨_, _, .k _ _ _, hx, hcs⟩
  | b =>
    obtain _ | ⟨hx, _ | ⟨hy, _ | ⟨hz, hcs⟩⟩⟩ := hcs
    exact ⟨_, _, .b _ _ _ _, hx, .cons (.app hy hz) hcs⟩
  | c =>
    obtain _ | ⟨hx, _ | ⟨hy, _ | ⟨hz, hcs⟩⟩⟩ := hcs
    exact ⟨_, _, .c _ _ _ _, hx, .cons hz (.cons hy hcs)⟩

/-- What a spine applies, with parts replaced. -/
inductive Focus.Replaces : Focus → Focus → Prop where
  | code {g h : Term} : Term.Replaces g h → Replaces (.code g) (.code h)
  | form (s : Nameless) : Replaces (.form s) (.form s)

/-- **Parts of a spine may be replaced** by parts that are read in the same way. -/
theorem ReadsBack.replaces {U Γ : List String} {f g : Focus} {as cs : List Term} {s : Nameless}
    (h : ReadsBack U Γ f as s) (hf : g.Replaces f) (hcs : List.Forall₂ Replaces cs as) : ReadsBack U Γ g cs s := by
  induction h generalizing g cs with
  | done s =>
    cases hf
    cases hcs
    exact .done s
  | arg _ _ iha ih =>
    cases hf
    obtain _ | ⟨ha, hcs⟩ := hcs
    exact .arg (iha (.code ha) .nil) (ih (.form _) hcs)
  | var _ ih =>
    obtain ⟨⟨hread⟩⟩ := hf
    exact hread _ _ _ _ (.var (ih (.form _) hcs))
  | unwind hu _ ih =>
    obtain ⟨hg⟩ := hf
    cases hg with
    | part hread =>
      -- the head is replaced after the spine has been read with the old one
      obtain ⟨l, ds, hu, hl, hds⟩ := hu.replaces hcs
      exact hread _ _ _ _ (.unwind hu (ih (.code hl) hds))
    | app hx hy =>
      obtain ⟨⟩ := hu
      exact .unwind (.app _ _ _) (ih (.code hx) (.cons hy hcs))
    | comp hx hy =>
      obtain ⟨⟩ := hu
      exact .unwind (.comp _ _ _) (ih (.code (.refl _)) (.cons hx (.cons hy hcs)))
  | abstract ho hl _ ih =>
    obtain ⟨⟨hread⟩⟩ := hf
    refine hread _ _ _ _ (.abstract ho (hcs.length_eq ▸ hl) fun y hy => ?_)
    exact ih y hy (.code (.refl _)) (List.rel_append hcs (.cons (.refl _) .nil))

namespace ReadsAs

variable {x x' y y' : Term}

theorem of_replaces (h : Replaces x y) : ReadsAs x y := fun _ _ as _ hr =>
  hr.replaces (.code h) (forall₂_replaces_refl as)

theorem app (hx : ReadsAs x x') (hy : ReadsAs y y') : ReadsAs (.app x y) (.app x' y') :=
  of_replaces (.app (.part hx) (.part hy))

theorem comp (hx : ReadsAs x x') (hy : ReadsAs y y') : ReadsAs (.comp x y) (.comp x' y') :=
  of_replaces (.comp (.part hx) (.part hy))

end ReadsAs

/-! ### Occurrences -/

/-- Code over the names `U` that copies nothing. -/
def AffineCode (U : List String) : Term → Prop
  | .var n => n ∈ U
  | .const o => o = .cb ∨ o ∈ Const.affine
  | .app x y | .comp x y => x.AffineCode U ∧ y.AffineCode U
  | _ => False

section

variable {U V Γ : List String} {h k : Term} {as bs : List Term} {s : Nameless}

theorem AffineCode.mem {c : Term} {n : String} (h : c.AffineCode U) (hn : n ∈ c.freeOccurrences) : n ∈ U := by
  induction c with
  | var m => exact List.mem_singleton.1 hn ▸ h
  | binary b x y ihx ihy =>
    cases b with
    | app | comp => exact (mem_freeOccurrences_binary.1 hn).elim (ihx h.1) (ihy h.2)
    | join | rand | define | stack | less | nless | equal => exact h.elim
  | const _ => cases hn
  | name _ | unary _ _ | lambda _ _ | letrec _ _ _ => exact h.elim

theorem AffineCode.of_subset {c : Term} (h : c.AffineCode U) (hV : ∀ n ∈ c.freeOccurrences, n ∈ V) :
    c.AffineCode V := by
  induction c with
  | var n => exact hV n List.mem_cons_self
  | const o => exact h
  | binary b x y ihx ihy =>
    rw [freeOccurrences, List.forall_mem_append] at hV
    cases b with
    | app | comp => exact ⟨ihx h.1 hV.1, ihy h.2 hV.2⟩
    | join | rand | define | stack | less | nless | equal => exact h.elim
  | name _ | unary _ _ | lambda _ _ | letrec _ _ _ => exact h.elim

theorem Unwinds.affineCode (hu : Unwinds h as k bs) (hh : h.AffineCode U) (has : ∀ a ∈ as, a.AffineCode U) :
    k.AffineCode U ∧ ∀ b ∈ bs, b.AffineCode U := by
  cases hu <;> simp_all [AffineCode, Const.affine]

/-- A combinator that has its operands is contracted. -/
theorem exists_unwinds {o : Const} (ho : o ∈ Const.affine) (h : o.operands ≤ as.length) :
    ∃ k bs, Unwinds (.const o) as k bs := by
  simp only [Const.affine, List.mem_cons, List.not_mem_nil, or_false] at ho
  obtain rfl | rfl | rfl | rfl := ho
  · obtain _ | ⟨x, as⟩ := as
    · simp [Const.operands] at h
    · exact ⟨_, _, .i x as⟩
  · obtain _ | ⟨x, _ | ⟨y, as⟩⟩ := as
    · simp [Const.operands] at h
    · simp [Const.operands] at h
    · exact ⟨_, _, .k x y as⟩
  · obtain _ | ⟨x, _ | ⟨y, _ | ⟨z, as⟩⟩⟩ := as
    · simp [Const.operands] at h
    · simp [Const.operands] at h
    · simp [Const.operands] at h
    · exact ⟨_, _, .b x y z as⟩
  · obtain _ | ⟨x, _ | ⟨y, _ | ⟨z, as⟩⟩⟩ := as
    · simp [Const.operands] at h
    · simp [Const.operands] at h
    · simp [Const.operands] at h
    · exact ⟨_, _, .c x y z as⟩

/-- The head of a spine of such code is a variable, or lacks an operand, or can be unwound. -/
theorem AffineCode.cases (hh : h.AffineCode U) (as : List Term) :
    (∃ n ∈ U, h = .var n) ∨ (∃ o ∈ Const.affine, h = .const o ∧ as.length < o.operands) ∨
      ∃ k bs, Unwinds h as k bs := by
  cases h with
  | var n => exact .inl ⟨n, hh, rfl⟩
  | binary b x y =>
    cases b with
    | app => exact .inr (.inr ⟨_, _, .app x y as⟩)
    | comp => exact .inr (.inr ⟨_, _, .comp x y as⟩)
    | join | rand | define | stack | less | nless | equal => exact hh.elim
  | const o =>
    rcases hh with rfl | ho
    · exact .inr (.inr ⟨_, _, .cb as⟩)
    · by_cases hl : as.length < o.operands
      · exact .inr (.inl ⟨o, ho, rfl, hl⟩)
      · exact .inr (.inr (exists_unwinds ho (Nat.not_lt.1 hl)))
  | name _ | unary _ _ | lambda _ _ | letrec _ _ _ => exact hh.elim

theorem occurrences_resolve {n : String} {i : Nat} (h : resolve Γ n ≠ .bound i) : (resolve Γ n).occurrences i = 0 := by
  rw [resolve] at h ⊢
  split
  · next hmem => simp_all [occurrences]
  · rfl

/-- Below an abstraction, the position of a variable is one more. -/
theorem resolve_cons_ne_bound {n y : String} {i : Nat} (h : n ≠ y → resolve Γ n ≠ .bound i) :
    resolve (y :: Γ) n ≠ .bound (1 + i) := by
  intro hbound
  by_cases hny : n = y
  · rw [hny, resolve_cons_self] at hbound
    have := Nameless.bound.inj hbound
    omega
  · have hn := h hny
    rw [resolve] at hn
    rw [resolve_cons_of_ne hny] at hbound
    split at hbound
    · next hmem =>
      rw [if_pos hmem] at hn
      have := Nameless.bound.inj hbound
      exact hn (congrArg bound (by omega))
    · cases hbound

/-- The names of what a spine applies are in `V`; a form has not the variable at position `i`. -/
def Focus.Avoids (V : List String) (i : Nat) : Focus → Prop
  | .code h => h.AffineCode V
  | .form s => s.occurrences i = 0

/-- A variable of the scope that is not in the code does not occur in what is read. -/
theorem ReadsBack.occurrences_eq_zero {f : Focus} (h : ReadsBack U Γ f as s) {i : Nat} (hf : f.Avoids V i)
    (has : ∀ a ∈ as, a.AffineCode V) (hV : ∀ n ∈ V, resolve Γ n ≠ .bound i) : s.occurrences i = 0 := by
  induction h generalizing V i with
  | done s => exact hf
  | arg _ _ iha ih =>
    rw [List.forall_mem_cons] at has
    have ha := iha (V := V) has.1 (List.forall_mem_nil _) hV
    refine ih ?_ has.2 hV
    show _ + _ = 0
    rw [hf, ha]
  | @var _ _ n _ _ _ ih => exact ih (occurrences_resolve (hV n hf)) has hV
  | unwind hu _ ih =>
    obtain ⟨hk, hbs⟩ := hu.affineCode hf has
    exact ih hk hbs hV
  | @abstract U Γ o as s ho _ _ ih =>
    obtain ⟨y, hy⟩ := NameSupply.exists_not_mem U
    show s.occurrences (1 + i) = 0
    refine ih y hy (V := y :: V) (.inr ho) ?_ ?_
    · rw [List.forall_mem_append, List.forall_mem_singleton]
      have hold (a : Term) (ha : a ∈ as) : a.AffineCode (y :: V) :=
        (has a ha).of_subset fun n hn => List.mem_cons_of_mem y ((has a ha).mem hn)
      exact ⟨hold, List.mem_cons_self⟩
    · intro n hn
      exact resolve_cons_ne_bound fun hny => hV n (List.mem_of_ne_of_mem hny hn)

theorem ReadsBack.of_form_concat {r : Nameless} {a : Term} (h : ReadsBack U Γ (.form r) (as ++ [a]) s) :
    ∃ t u, s = .binary .app t u ∧ ReadsBack U Γ (.form r) as t ∧ ReadsBack U Γ (.code a) [] u := by
  induction as generalizing r with
  | nil =>
    cases h with
    | arg ha h =>
      cases h
      exact ⟨_, _, rfl, .done r, ha⟩
  | cons b bs ih =>
    cases h with
    | arg hb h =>
      obtain ⟨t, u, hs, ht, hu⟩ := ih h
      exact ⟨t, u, hs, .arg hb ht, hu⟩

end

end Term

/-- The form of the body of an η-redex. -/
def Nameless.EtaBody (s : Nameless) : Prop := ∃ r, s = .binary .app r (.bound 0) ∧ r.occurrences 0 = 0

namespace Term

variable {U Γ : List String} {as : List Term} {s : Nameless}

/-- A variable that is applied to a new variable last is the body of an η-redex. -/
theorem ReadsBack.etaBody {n y : String} (hy : y ∉ U) (hn : n ∈ U) (has : ∀ a ∈ as, a.AffineCode U)
    (h : ReadsBack (y :: U) (y :: Γ) (.code (.var n)) (as ++ [.var y]) s) : s.EtaBody := by
  have hne {m : String} (hm : m ∈ U) : m ≠ y := fun e => hy (e ▸ hm)
  have hscope : ∀ m ∈ U, resolve (y :: Γ) m ≠ .bound 0 := by
    intro m hm h
    exact hne hm (resolve_inj (h.trans (resolve_cons_self y Γ).symm))
  cases h with
  | unwind hu _ => cases hu
  | var h =>
    obtain ⟨t, u, rfl, ht, hu⟩ := h.of_form_concat
    have hu : u = .bound 0 := by
      cases hu with
      | unwind hu _ => cases hu
      | var hu =>
        cases hu
        exact resolve_cons_self y Γ
    exact ⟨t, by rw [hu], ht.occurrences_eq_zero (V := U) (occurrences_resolve (hscope n hn)) has hscope⟩

/-- **Code that is read with a new last argument** is read as an abstraction without it, unless that is an η-redex. -/
theorem ReadsBack.abstract_or_eta {h : Term} (hh : h.AffineCode U) (has : ∀ a ∈ as, a.AffineCode U)
    (hr : ∀ y ∉ U, ReadsBack (y :: U) (y :: Γ) (.code h) (as ++ [.var y]) s) :
    ReadsBack U Γ (.code h) as (.lambda 1 (.bound 0) s) ∨ s.EtaBody := by
  induction hw : h.weight + argsWeight as using Nat.strongRecOn generalizing h as with | ind w ih
  obtain ⟨n, hn, rfl⟩ | ⟨o, ho, rfl, hl⟩ | ⟨k, bs, hu⟩ := hh.cases as
  · obtain ⟨y, hy⟩ := NameSupply.exists_not_mem U
    exact .inr (etaBody hy hn has (hr y hy))
  · exact .inl (.abstract ho hl hr)
  · obtain ⟨hk, hbs⟩ := hu.affineCode hh has
    have hread := ih _ (hw ▸ hu.weight_lt) hk hbs (fun y hy => (hr y hy).of_unwinds (hu.append [.var y])) rfl
    exact hread.imp_left (.unwind hu)

end Term

end Combinatory
