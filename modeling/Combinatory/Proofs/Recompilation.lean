import Combinatory.Storage
import Combinatory.Proofs.CodeSubstitution
import Combinatory.Proofs.CombinatorElimination
import Combinatory.Proofs.Equations

/-!
# Decompiled code can be compiled

Combinator code without comparisons and without `A` is decompiled to a term that has code again: what is loaded can be
dumped.

## The proof

Compilation fails on a binder that is not a single variable, and on a bound variable below a head that it cannot be
drawn through. `Term.Supported` excludes both.

* Decompilation puts new variables into code only where they can be drawn out again (`Contracts.drawable`,
  `Shares.drawable`), so what it gives is supported (`Decompiles.supported`). Comparisons are left out, since they bind
  quoted variables.
* Whether a term is supported can be told from its nameless form: no quotation, and no other head that variables are not
  drawn through, has a variable that points out of it (`supported_nameless_iff`). Replacing a bound variable leaves such
  parts as they are (`Nameless.Supported.instantiate`), so simplification keeps terms supported
  (`Simplifies.supported`), whatever binders it renames.

## What is proved

* `exists_compile_decompile`: the decompiled term of comparison-free code has code, which has no binders and no free
  variables that are not names of the first code.
-/

namespace Combinatory

open Nameless

/-! ### Forms of supported terms -/

namespace Nameless

/-- The form of a supported term: binders bind single variables, and a part that no variable can be drawn out of has no
variable that points out of it. -/
def Supported : Nameless → Prop
  | .name _ | .const _ | .free _ | .bound _ => True
  | .unary _ x => x.Closed ∧ x.Supported
  | .binary .app x y | .binary .comp x y | .binary .join x y | .binary .rand x y => x.Supported ∧ y.Supported
  | .binary _ x y => (x.Closed ∧ y.Closed) ∧ x.Supported ∧ y.Supported
  | .lambda k p e => (k = 1 ∧ p = .bound 0) ∧ e.Supported
  | .letrec k p d e => (k = 1 ∧ p = .bound 0) ∧ d.Supported ∧ e.Supported

theorem Supported.instantiate {s a : Nameless} (hs : s.Supported) (ha : a.Supported) (k : Nat) :
    (s.instantiate k a).Supported := by
  induction s generalizing k with
  | name _ | const _ | free _ => trivial
  | bound i =>
    rw [Nameless.instantiate]
    split
    · exact ha
    · trivial
  | unary u x _ =>
    rw [Nameless.instantiate, hs.1 k a]
    exact hs
  | binary b x y ihx ihy =>
    cases b with
    | app | comp | join | rand => exact ⟨ihx hs.1 k, ihy hs.2 k⟩
    | define | stack | less | nless | equal =>
      rw [Nameless.instantiate, hs.1.1 k a, hs.1.2 k a]
      exact hs
  | lambda m p e _ ihe => exact ⟨hs.1, ihe hs.2 (m + k)⟩
  | letrec m p d e _ ihd ihe => exact ⟨hs.1, ihd hs.2.1 (m + k), ihe hs.2.2 (m + k)⟩

end Nameless

namespace Term

variable {v n : String} {t u c d a x y : Term} {Γ ns : List String}

/-- A form is closed if the scope binds none of its variables. -/
theorem closed_nameless_iff : (t.nameless Γ).Closed ↔ ∀ v ∈ Γ, v ∉ t.freeOccurrences := by
  constructor
  · exact fun h v hv ht => not_mem_scope h rfl v ht hv
  · intro h
    rw [nameless_eq_nil fun v ht hv => h v hv ht]
    exact t.closed_nameless

theorem drawable_of_mem_cons (hn : t.Drawable n) (hΓ : ∀ v ∈ Γ, v ∈ [n] ∨ t.Drawable v) :
    ∀ v ∈ n :: Γ, t.Drawable v := by
  refine List.forall_mem_cons.2 ⟨hn, fun v hv => (hΓ v hv).elim (fun e => ?_) id⟩
  exact List.mem_singleton.1 e ▸ hn

/-- **Supported terms by their forms**: no variable of the scope is quoted. -/
theorem supported_nameless_iff : (t.nameless Γ).Supported ↔ t.Supported ∧ ∀ v ∈ Γ, t.Drawable v := by
  induction t generalizing Γ with
  | name _ | const _ => exact ⟨fun _ => ⟨trivial, fun _ _ => List.not_mem_nil⟩, fun _ => trivial⟩
  | var m =>
    refine ⟨fun _ => ⟨trivial, fun _ _ => trivial⟩, fun _ => ?_⟩
    rw [nameless_var, resolve]
    split <;> trivial
  | unary u x ih =>
    show (x.nameless Γ).Closed ∧ (x.nameless Γ).Supported ↔ x.Supported ∧ ∀ v ∈ Γ, v ∉ x.freeOccurrences
    rw [ih, closed_nameless_iff]
    exact ⟨fun h => ⟨h.2.1, h.1⟩, fun h => ⟨h.2, h.1, fun v hv => drawable_of_not_mem (h.2 v hv)⟩⟩
  | binary b x y ihx ihy =>
    cases b with
    | app | comp | join | rand =>
      show (x.nameless Γ).Supported ∧ (y.nameless Γ).Supported ↔
        (x.Supported ∧ y.Supported) ∧ ∀ v ∈ Γ, x.Drawable v ∧ y.Drawable v
      rw [ihx, ihy]
      exact ⟨fun h => ⟨⟨h.1.1, h.2.1⟩, fun v hv => ⟨h.1.2 v hv, h.2.2 v hv⟩⟩,
        fun h => ⟨⟨h.1.1, fun v hv => (h.2 v hv).1⟩, h.1.2, fun v hv => (h.2 v hv).2⟩⟩
    | define | stack | less | nless | equal =>
      show ((x.nameless Γ).Closed ∧ (y.nameless Γ).Closed) ∧ (x.nameless Γ).Supported ∧ (y.nameless Γ).Supported ↔
        (x.Supported ∧ y.Supported) ∧ ∀ v ∈ Γ, v ∉ x.freeOccurrences ++ y.freeOccurrences
      rw [ihx, ihy, closed_nameless_iff, closed_nameless_iff]
      simp only [List.mem_append, not_or]
      exact ⟨fun h => ⟨⟨h.2.1.1, h.2.2.1⟩, fun v hv => ⟨h.1.1 v hv, h.1.2 v hv⟩⟩,
        fun h => ⟨⟨fun v hv => (h.2 v hv).1, fun v hv => (h.2 v hv).2⟩,
          ⟨h.1.1, fun v hv => drawable_of_not_mem (h.2 v hv).1⟩,
          h.1.2, fun v hv => drawable_of_not_mem (h.2 v hv).2⟩⟩
  | lambda p e _ ihe =>
    constructor
    · rintro ⟨⟨-, hp⟩, he⟩
      obtain ⟨w, rfl⟩ := nameless_eq_bound hp
      obtain ⟨he, hw⟩ := ihe.1 he
      exact ⟨⟨hw w List.mem_cons_self, he⟩, fun v hv => .inr (hw v (List.mem_cons_of_mem w hv))⟩
    · rintro ⟨hs, hΓ⟩
      cases p with
      | var w =>
        rw [nameless_lambda_var]
        exact ⟨⟨rfl, rfl⟩, ihe.2 ⟨hs.2, drawable_of_mem_cons hs.1 hΓ⟩⟩
      | name _ | const _ | unary _ _ | binary _ _ _ | lambda _ _ | letrec _ _ _ => exact hs.elim
  | letrec p d e _ ihd ihe =>
    constructor
    · rintro ⟨⟨-, hp⟩, hd, he⟩
      obtain ⟨w, rfl⟩ := nameless_eq_bound hp
      obtain ⟨hd, hwd⟩ := ihd.1 hd
      obtain ⟨he, hwe⟩ := ihe.1 he
      refine ⟨⟨⟨hwd w List.mem_cons_self, hwe w List.mem_cons_self⟩, hd, he⟩, fun v hv => .inr ⟨?_, ?_⟩⟩
      · exact hwd v (List.mem_cons_of_mem w hv)
      · exact hwe v (List.mem_cons_of_mem w hv)
    · rintro ⟨hs, hΓ⟩
      cases p with
      | var w =>
        rw [nameless_letrec_var]
        have hd := drawable_of_mem_cons hs.1.1 fun v hv => (hΓ v hv).imp_right And.left
        have he := drawable_of_mem_cons hs.1.2 fun v hv => (hΓ v hv).imp_right And.right
        exact ⟨⟨rfl, rfl⟩, ihd.2 ⟨hs.2.1, hd⟩, ihe.2 ⟨hs.2.2, he⟩⟩
      | name _ | const _ | unary _ _ | binary _ _ _ | lambda _ _ | letrec _ _ _ => exact hs.elim

theorem supported_nameless_nil_iff : (t.nameless []).Supported ↔ t.Supported := by
  rw [supported_nameless_iff]
  exact and_iff_left fun _ hv => absurd hv List.not_mem_nil

/-! ### Simplification -/

theorem AlphaEq.supported (h : AlphaEq t u) (ht : t.Supported) : u.Supported := by
  rw [← supported_nameless_nil_iff] at ht ⊢
  exact h ▸ ht

/-- A variable that can be drawn out of a term can be replaced by any supported term. -/
theorem supported_substitute (ht : t.Tidy) (hs : (Term.lambda (.var n) t).Supported) (hd : d.Supported) :
    (substitute n d t).Supported := by
  have hbody : (t.nameless [n]).Supported :=
    supported_nameless_iff.2 ⟨hs.2, List.forall_mem_singleton.2 hs.1⟩
  rw [← supported_nameless_nil_iff, nameless_substitute_nil ht, ← instantiate_nameless_singleton]
  exact hbody.instantiate (supported_nameless_nil_iff.2 hd) 0

theorem Simplifies.supported (h : Simplifies t u) (ht : t.Tidy) (hs : t.Supported) : u.Supported := by
  have hkeeps : Hereditary fun t => t.Tidy ∧ t.Supported := .ofTidy Iff.rfl id And.right supported_substitute
  exact (h.keeps hkeeps ⟨ht, hs⟩).2

theorem supported_of_simplify (ht : t.Tidy) (hs : t.Supported) (h : t.simplify = .ok u) : u.Supported := by
  have hnormal := simplifies_normalize t
  have hform := (canonicalForm_canonical (hnormal.wellFormed ht.1) h).2
  exact AlphaEq.supported hform.alphaEq.symm (hnormal.supported ht hs)

end Term

/-! ### Decompilation -/

namespace Vocabulary

/-- Code without binders and comparisons. -/
def comparisonFree : Vocabulary := ⟨Head.Equational, fun _ => True, False⟩

theorem closed_comparisonFree : comparisonFree.Closed := closed_equational

end Vocabulary

namespace Term

open Vocabulary

variable {v n : String} {t u c d a x y : Term} {ns : List String}

theorem Over.equational (h : c.Over comparisonFree) : c.Over equational :=
  h.mono (fun _ => id) (fun _ => id) False.elim

/-- All names of such code are free variables. -/
theorem Over.mem_freeOccurrences (h : c.Over comparisonFree) (hn : n ∈ c.payloads) : n ∈ c.freeOccurrences := by
  induction c with
  | name _ => exact h.1.elim
  | const _ => cases hn
  | var _ => exact hn
  | unary _ x ih => exact ih h.2 hn
  | binary b x y ihx ihy =>
    rw [mem_freeOccurrences_binary]
    exact (List.mem_append.1 hn).imp (ihx h.of_binary.1) (ihy h.of_binary.2)
  | lambda _ _ | letrec _ _ _ => exact h.1.elim

theorem drawable_appAll {as : List Term} : (c.appAll as).Drawable v ↔ c.Drawable v ∧ ∀ a ∈ as, a.Drawable v :=
  appAll_iff fun _ _ => Iff.rfl

theorem drawable_const (o : Const) : (Term.const o).Drawable v := List.not_mem_nil

theorem Contracts.drawable (h : Contracts c d) (hc : c.Over comparisonFree) (hv : c.Drawable v) : d.Drawable v := by
  cases h with
  | i x => exact hv.2
  | k x y => exact hv.1.2
  | b x y z => exact ⟨hv.1.1.2, hv.1.2, hv.2⟩
  | c x y z => exact ⟨⟨hv.1.1.2, hv.2⟩, hv.1.2⟩
  | w x n => exact ⟨⟨hv.1.2, hv.2⟩, hv.2⟩
  | s x y n => exact ⟨⟨hv.1.1.2, hv.2⟩, hv.1.2, hv.2⟩
  | comp x y => exact ⟨⟨drawable_const _, hv.1⟩, hv.2⟩
  | @derived o _ ho =>
    apply drawable_of_not_mem
    cases o <;> cases ho <;> exact List.not_mem_nil
  | @operator o _ x y ho => cases o <;> cases ho <;> exact ⟨hv.1.2, hv.2⟩
  | comparison x y ho => exact absurd (ho.symm.trans hc.1.1) (Option.some_ne_none _)

/-- A shared part, and what is left with a name for it, have a variable only where the code has it. -/
theorem Shares.drawable {q d : String → Term} (h : Shares c a q d) (hc : c.Over comparisonFree) (hv : c.Drawable v) :
    q = .var ∧ a.Drawable v ∧ ∀ w, (d w).Drawable v := by
  cases h with
  | w x a => exact ⟨rfl, hv.2, fun _ => ⟨⟨hv.1.2, trivial⟩, trivial⟩⟩
  | s x y a => exact ⟨rfl, hv.2, fun _ => ⟨⟨hv.1.1.2, trivial⟩, hv.1.2, trivial⟩⟩
  | operand a ho => exact absurd (ho.symm.trans hc.1) (Option.some_ne_none _)
  | left a y ho | right x a ho => exact absurd (ho.symm.trans hc.1.1) (Option.some_ne_none _)

namespace Decompiles

/-- Decompilation puts a variable below no head that it cannot be drawn through. -/
theorem drawable (h : Decompiles c ns t) (hc : c.Over comparisonFree) (hv : c.Drawable v) : t.Drawable v := by
  -- below a head that a variable cannot be drawn through it does not occur, and does not come in
  have below {x t : Term} {ns : List String} (h : Decompiles x ns t) (hx : x.Over comparisonFree)
      (hv : v ∉ x.freeOccurrences) : v ∉ t.freeOccurrences := by
    have hnames : x.Over (ofNames (· ≠ v)) := by
      refine over_of_heads (fun _ _ => trivial) (fun n hn => ?_) (.inl trivial)
      rintro rfl
      exact hv (hx.mem_freeOccurrences hn)
    exact fun ht => h.name_of_mem hnames v ht rfl
  induction h with
  | var n => trivial
  | hole => exact hv
  | absorb as _ => exact drawable_const _
  | @unary u x t _ h _ =>
    show v ∉ t.freeOccurrences
    exact below h hc.2 hv
  | @binary b x y t u _ _ _ hx hy ihx ihy =>
    obtain ⟨hcx, hcy⟩ := hc.of_binary
    cases b with
    | app | comp | join | rand => exact ⟨ihx hcx hv.1, ihy hcy hv.2⟩
    | define | stack | less | nless | equal =>
      have hxy : v ∉ x.freeOccurrences ∧ v ∉ y.freeOccurrences := by
        rw [← not_or, ← mem_freeOccurrences_binary]
        exact hv
      show v ∉ t.freeOccurrences ++ u.freeOccurrences
      rw [List.mem_append, not_or]
      exact ⟨below hx hcx hxy.1, below hy hcy hxy.2⟩
  | lambda => exact hc.1.elim
  | letrec => exact hc.1.elim
  | contract as h _ ih =>
    rw [over_appAll] at hc
    rw [drawable_appAll] at hv
    exact ih (over_appAll.2 ⟨h.over closed_comparisonFree hc.1, hc.2⟩)
      (drawable_appAll.2 ⟨h.drawable hc.1 hv.1, hv.2⟩)
  | @abstract c t q y _ hq _ _ ih =>
    obtain rfl := hq.eq_var hc.equational
    exact .inr (ih ⟨hc, trivial⟩ ⟨hv, trivial⟩)
  | @share c a t u q d w _ _ hsh _ _ _ iha ihd =>
    obtain ⟨hca, hcd⟩ := hsh.over closed_comparisonFree hc
    obtain ⟨rfl, hva, hvd⟩ := hsh.drawable hc hv
    exact .inr ⟨iha hca hva, ihd (hcd w trivial) (hvd w)⟩
  | fixpoint _ _ _ _ ih => exact .inr ⟨.inr ⟨ih hc.2 hv.2, trivial, trivial⟩, trivial⟩

/-- Comparison-free code is decompiled to a term that can be compiled. -/
theorem supported (h : Decompiles c ns t) (hc : c.Over comparisonFree) : t.Supported := by
  have new {c : Term} {v : String} (hv : v ∉ c.payloads) : c.Drawable v :=
    drawable_of_not_mem (mt mem_payloads_of_mem_freeOccurrences hv)
  induction h with
  | var n => trivial
  | hole => trivial
  | absorb as _ => trivial
  | unary _ _ ih => exact ih hc.2
  | binary _ _ _ ihx ihy => exact ⟨ihx hc.of_binary.1, ihy hc.of_binary.2⟩
  | lambda => exact hc.1.elim
  | letrec => exact hc.1.elim
  | contract as h _ ih =>
    rw [over_appAll] at hc
    exact ih (over_appAll.2 ⟨h.over closed_comparisonFree hc.1, hc.2⟩)
  | @abstract c t q y _ hq hy ht ih =>
    obtain rfl := hq.eq_var hc.equational
    have hcy : (Term.app c (.var y)).Over comparisonFree := ⟨hc, trivial⟩
    exact ⟨ht.drawable hcy ⟨new hy, trivial⟩, ih hcy⟩
  | @share c a t u q d v _ _ hsh hv ht hu iha ihd =>
    obtain ⟨hca, hcd⟩ := hsh.over closed_comparisonFree hc
    obtain ⟨rfl, hva, hvd⟩ := hsh.drawable hc (new hv)
    exact ⟨⟨ht.drawable hca hva, hu.drawable (hcd v trivial) (hvd v)⟩, iha hca, ihd (hcd v trivial)⟩
  | @fixpoint x t y z _ _ hy hz ht ih =>
    have hty := ht.drawable hc.2 (new hy)
    have htz := ht.drawable hc.2 (new hz)
    exact ⟨⟨.inr ⟨hty, trivial, trivial⟩, trivial⟩, ⟨⟨htz, trivial, trivial⟩, ih hc.2, trivial, trivial⟩, trivial⟩

end Decompiles

/-! ### Loading and dumping -/

/-- Code without binders is decompiled to a term with simple and linear binders. -/
theorem tidy_decompileRaw {r : Term} (hc : c.WellFormed) (hb : c.BinderFree) (h : c.decompileRaw = .ok r) :
    r.Tidy ∧ r.LinearBinders := by
  obtain ⟨ns, hd⟩ := decompiles_of_decompileRaw h
  exact hd.tidy (hb.over hc)

theorem Over.binderFree (h : c.Over comparisonFree) : c.Over binderFree := by
  refine h.mono (fun a ha => ⟨?_, ?_⟩) (fun _ => id) id
  · rintro rfl
    exact ha
  · rintro rfl
    exact ha

/-- Comparison-free code has a decompiled term, which can be compiled and has no other free variables than the names of
the code. -/
theorem exists_supported_decompile (hc : c.WellFormed) (hcode : c.Over comparisonFree)
    (hrules : ∀ a ∈ c.heads, a ≠ .const .a ∧ a ≠ .const .nil) :
    ∃ t, c.decompile = .ok t ∧ t.Supported ∧ ∀ m ∈ t.freeNames, m ∈ c.names := by
  obtain ⟨r, hr⟩ := exists_decompileRaw hc hrules
  obtain ⟨ns, hd⟩ := decompiles_of_decompileRaw hr
  obtain ⟨htidy, hlinear⟩ := hd.tidy hcode.binderFree
  obtain ⟨t, ht⟩ := exists_simplify htidy hlinear
  refine ⟨t, bind_eq_ok.2 ⟨r, hr, ht⟩, supported_of_simplify htidy (hd.supported hcode) ht, fun m hm => ?_⟩
  have hnames : c.Over (ofNames (· ∈ c.payloads)) := over_of_heads (fun _ _ => trivial) (fun _ => id) (.inl trivial)
  exact mem_names.2 (hd.name_of_mem hnames m (mem_freeNames.1 (mem_freeNames_of_simplify htidy ht hm)))

/-- **Loaded code can be dumped**: code over the vocabulary of combinators, without comparisons and `A`, is decompiled
to a term that has code. That code has no binders, and its free variables are names of the first code. A text of the
first code is loaded as the term, and the term is dumped as the text of its code. -/
theorem exists_compile_decompile (hc : c.WellFormed) (hv : ∀ a ∈ c.heads, a ∈ Head.combinatorVocabulary)
    (hn : ∀ o ∈ [Const.a, .qless, .qnless, .qequal], Head.const o ∉ c.heads) :
    ∃ t d, c.decompile = .ok t ∧ t.compile = .ok d ∧ (Head.lambda ∉ d.heads ∧ Head.letrec ∉ d.heads) ∧
      (∀ m ∈ d.freeNames, m ∈ c.names) ∧
      ∀ source, Term.parse source = .ok c → Term.load source = .ok t ∧ t.dump = .ok d.print := by
  have hhead (a : Head) (ha : a ∈ c.heads) : a.Equational ∧ a ≠ .const .a ∧ a ≠ .const .nil := by
    have hlist : ∀ a ∈ Head.combinatorVocabulary, (a.Equational ∧ a ≠ .const .a ∧ a ≠ .const .nil) ∨
        ∃ o ∈ [Const.a, .qless, .qnless, .qequal], a = .const o := by decide
    obtain h | ⟨o, ho, rfl⟩ := hlist a (hv a ha)
    · exact h
    · exact absurd ha (hn o ho)
  have hcode : c.Over comparisonFree :=
    over_of_heads (fun a ha => (hhead a ha).1) (fun _ _ => trivial) (.inr hc)
  obtain ⟨t, ht, hs, hnames⟩ := exists_supported_decompile hc hcode fun a ha => (hhead a ha).2
  obtain ⟨d, hd⟩ := hs.exists_compiles
  refine ⟨t, d, ht, hd.compile, hd.binderFree.not_mem_heads, fun m hm => ?_, fun source hsource => ⟨?_, ?_⟩⟩
  · exact hnames m (mem_freeNames.2 (hd.mem_freeOccurrences (mem_freeNames.1 hm)))
  · exact bind_eq_ok.2 ⟨c, hsource, ht⟩
  · exact bind_eq_ok.2 ⟨d, hd.compile, rfl⟩

/-- A quoted variable that is also used outside the quotation, an operand that is shared, and `P`, which stands for a
term with fixed points. -/
theorem exists_compile_decompile_quoted :
    ∃ t d, (appAll (.const .w) [app (.const .s) (.quote (.var "x")), app (.const .p) (.var "x")]).decompile = .ok t ∧
      t.compile = .ok d ∧ (Head.lambda ∉ d.heads ∧ Head.letrec ∉ d.heads) ∧ (∀ m ∈ d.freeNames, m = "x") ∧
      t.dump = .ok d.print := by
  have hparse : Term.parse "APP APP W APP S QUOTE VAR x APP P VAR x" =
      .ok (appAll (.const .w) [app (.const .s) (.quote (.var "x")), app (.const .p) (.var "x")]) := by
    decide +kernel
  obtain ⟨t, d, ht, hd, hheads, hnames, hdump⟩ := exists_compile_decompile
    (c := appAll (.const .w) [app (.const .s) (.quote (.var "x")), app (.const .p) (.var "x")])
    (by simp [WellFormed]) (by decide) (by decide)
  exact ⟨t, d, ht, hd, hheads, fun m hm => by simpa [payloads] using hnames m hm, (hdump _ hparse).2⟩

end Term

end Combinatory
