import Combinatory.Grouping
import Combinatory.Spine
import Combinatory.Proofs.AlphaEquivalence
import Combinatory.Proofs.BracketAbstraction
import Combinatory.Proofs.DecompilationSteps
import Combinatory.Proofs.Normalization
import Combinatory.Proofs.Parsing
import Combinatory.Proofs.Tables.Compilation
import Combinatory.Proofs.Tables.Decompilation
import Combinatory.Proofs.Tables.Grouping

/-!
# Rewriting keeps terms readable

A term can be read back from its printed form if it is well formed and its names are name tokens. Every rewriting of
such a term gives such a term again, or refuses it.

## The model

`Term.Rewriting` lists the ways to rewrite a term, and `Term.Rewriting.apply` does what they say. A term is
`Term.Readable` if it is well formed with name tokens for names. New names come from a supply only, and the names of a
supply are local names (`NameSupply.isLocalName_nameAt`). Each rewriting is known by rules, which are followed one by
one: those of `Simplifies`, `Abstracts` and `Compiles`, and the rows of the table of decompilation.

`Term.Rewriting.script` is the same rewriting by rule tables, with handlers that read what a pattern has bound and run
into a fault where it is not there.

## What is proved

* `Term.Rewriting.outcome_apply` — each rewriting of a readable term gives a readable term, or fails with an error of
  its own.
* `Term.Rewriting.runs_script` — the rewriting by tables ends on every term with the outcome of the rewriting, and
  never with a fault.
* `Term.Rewriting.parse_print_apply` — so what it gives is read back from its printed form.
-/

namespace Combinatory

/-! ### Drawn names -/

namespace NameSupply

theorem isLower_letter (i : Nat) : (letter i).isLower = true := by
  have lower : ∀ a : Fin 26, (Char.ofNat (97 + a)).isLower = true := by decide
  exact lower ⟨i % 26, by omega⟩

/-- The names of the sequence are local names. -/
theorem isLocalName_nameAt (i : Nat) : isLocalName (nameAt i).toList = true := by
  unfold nameAt
  split
  · simp [isLocalName, isLower_letter]
  · simp only [String.toList_append, String.toList_singleton, List.singleton_append, isLocalName, isLower_letter,
      Bool.true_and, List.all_eq_true, Nat.toString_eq_ofList_toDigits, String.toList_ofList]
    intro c hc
    simp [Nat.isDigit_of_mem_toDigits (by decide) (by decide) hc]

theorem isNameToken_nameAt (i : Nat) : isNameToken (nameAt i) = true := by
  simp [isNameToken, isLocalName_nameAt]

theorem isNameToken_draw (s : NameSupply) : isNameToken s.draw.1 = true := isNameToken_nameAt _

theorem isNameToken_of_mem_drawMany {s : NameSupply} {k : Nat} {n : String} (h : n ∈ (s.drawMany k).1) :
    isNameToken n = true := by
  induction k generalizing s with
  | zero => simp [drawMany] at h
  | succ k ih =>
    simp only [drawMany, List.mem_cons] at h
    rcases h with rfl | h
    · exact s.isNameToken_draw
    · exact ih h

theorem Gives.isNameToken {s s' : NameSupply} {ns : List String} (h : s.Gives ns s') {n : String} (hn : n ∈ ns) :
    isNameToken n = true :=
  isNameToken_of_mem_drawMany (k := ns.length) (by rwa [h])

end NameSupply

namespace Term

variable {t u d p : Term}

/-! ### Substitution and normalization -/

theorem readable_rename {old new : String} (hnew : isNameToken new = true) (ht : t.Readable) :
    (t.rename old new).Readable := by
  refine ⟨wellFormed_rename.2 ht.1, fun n hn => ?_⟩
  rcases payloads_rename_subset hn with hn | rfl
  · exact ht.2 n hn
  · exact hnew

theorem readable_renameAll {pairs : List (String × String)} (hnew : ∀ r ∈ pairs, isNameToken r.2 = true)
    (ht : t.Readable) : (t.renameAll pairs).Readable := by
  induction pairs generalizing t with
  | nil => exact ht
  | cons r rs ih =>
    rw [List.forall_mem_cons] at hnew
    exact ih hnew.2 (readable_rename hnew.1 ht)

theorem isNameToken_refreshing (p : Term) (ns : List String) (d : Term) :
    ∀ r ∈ refreshing p ns d, isNameToken r.2 = true := by
  intro r hr
  exact NameSupply.isNameToken_of_mem_drawMany (List.of_mem_zip hr).2

theorem readable_substitute {n : String} (hd : d.Readable) (ht : t.Readable) : (substitute n d t).Readable := by
  fun_induction substitute n d t with
  | case1 | case2 | case4 | case7 | case9 => exact ht
  | case3 => exact hd
  | case5 u x ih => exact ih ht
  | case6 b x y ihx ihy =>
    rw [readable_binary] at ht ⊢
    exact ⟨ihx ht.1, ihy ht.2⟩
  | case8 p e hc r ihp ihe =>
    have hr : ∀ q ∈ r, isNameToken q.2 = true := isNameToken_refreshing p _ d
    rw [readable_lambda] at ht ⊢
    exact ⟨ihp (readable_renameAll hr ht.1), ihe (readable_renameAll hr ht.2)⟩
  | case10 p f e hc r ihp ihf ihe =>
    have hr : ∀ q ∈ r, isNameToken q.2 = true := isNameToken_refreshing p _ d
    rw [readable_letrec] at ht ⊢
    exact ⟨ihp (readable_renameAll hr ht.1), ihf (readable_renameAll hr ht.2.1), ihe (readable_renameAll hr ht.2.2)⟩

theorem Simplifies.readable (h : Simplifies t u) (ht : t.Readable) : u.Readable := by
  have hkeeps : Hereditary Readable := ⟨readable_binary, readable_binary.1, fun h => (readable_lambda.1 h).2,
    fun he ha => readable_substitute ha (readable_lambda.1 he).2⟩
  exact h.keeps hkeeps ht

/-! ### Canonical names -/

/-- The names of a well-formed term are bound or free. -/
theorem mem_boundNames_or_mem_freeOccurrences {n : String} (ht : t.WellFormed) (hn : n ∈ t.payloads) :
    n ∈ t.boundNames ∨ n ∈ t.freeOccurrences := by
  induction t with
  | name m => exact ht.elim
  | const o => cases hn
  | var m => exact .inr hn
  | unary u x ih => exact ih ht hn
  | binary b x y ihx ihy =>
    rw [payloads, List.mem_append] at hn
    rw [boundNames, freeOccurrences, List.mem_append, List.mem_append]
    rcases hn with hn | hn
    · exact (ihx ht.1 hn).imp .inl .inl
    · exact (ihy ht.2 hn).imp .inr .inr
  | lambda p e _ ihe =>
    rw [payloads, List.mem_append] at hn
    by_cases hp : n ∈ p.payloads
    · exact .inl (List.mem_append_left _ hp)
    · have he := ihe ht.2 (hn.resolve_left hp)
      simpa [boundNames, freeOccurrences, hp] using he
  | letrec p d e _ ihd ihe =>
    rw [payloads, List.mem_append, List.mem_append] at hn
    by_cases hp : n ∈ p.payloads
    · exact .inl (by simp [boundNames, hp])
    · simp only [boundNames, freeOccurrences, List.mem_append, List.mem_filter, hp, false_or, decide_not,
        decide_false, Bool.not_false, and_true]
      rcases hn with (hn | hn) | hn
      · exact absurd hn hp
      · exact (ihd ht.2.1 hn).imp .inl .inl
      · exact (ihe ht.2.2 hn).imp .inr .inr

theorem CanonicalForm.readable (h : CanonicalForm t u) (ht : t.Readable) : u.Readable := by
  refine ⟨h.wellFormed, fun n hn => ?_⟩
  rcases mem_boundNames_or_mem_freeOccurrences h.wellFormed hn with hn | hn
  · obtain ⟨s, hs⟩ := h.gives
    exact hs.isNameToken hn
  · rw [← mem_freeNames, h.alphaEq.freeNames_eq, mem_freeNames] at hn
    exact ht.2 n (mem_payloads_of_mem_freeOccurrences hn)

theorem outcome_canonical (ht : t.Readable) : Outcome Readable BoundTwice t.canonical :=
  .of_cases (fun _ h => (canonicalForm_canonical ht.1 h).2.readable ht) fun _ h => (boundTwice_canonical ht.1 h).1

theorem outcome_simplify (ht : t.Readable) : Outcome Readable BoundTwice t.simplify :=
  outcome_canonical ((simplifies_normalize t).readable ht)

/-! ### Compilation -/

theorem Abstracts.readable {v : String} (h : Abstracts v t u) (ht : t.Readable) : u.Readable :=
  h.keeps (H := fun _ => True) readable_const trivial trivial (by simp) ht

theorem Compiles.readable (h : Compiles t u) (ht : t.Readable) : u.Readable := by
  induction h with
  | name _ | const _ | var _ => exact ht
  | unary u _ ih => exact ih ht
  | binary b _ _ ihx ihy =>
    rw [readable_binary] at ht ⊢
    exact ⟨ihx ht.1, ihy ht.2⟩
  | constant _ _ ih => exact readable_binary.2 ⟨readable_const _, ih (readable_lambda.1 ht).2⟩
  | abstract _ ha ih => exact ha.readable (ih (readable_lambda.1 ht).2)
  | unused _ _ _ _ ihe => exact ihe (readable_letrec.1 ht).2.2
  | plain _ _ ha _ ihd ihe =>
    rw [readable_letrec] at ht
    exact readable_binary.2 ⟨ha.readable (ihe ht.2.2), ihd ht.2.1⟩
  | recursive _ _ ha hb ihd ihe =>
    rw [readable_letrec] at ht
    have hfix := hb.readable (ihd ht.2.1)
    exact readable_binary.2 ⟨ha.readable (ihe ht.2.2), readable_binary.2 ⟨readable_const .y, hfix⟩⟩

theorem outcome_compile (ht : t.Readable) : Outcome Readable (fun e => ∃ what, e = .notImplemented what) t.compile :=
  .of_cases (fun _ h => (compiles_of_compile h).readable ht) fun _ => unsupported_of_compile

/-! ### Decompilation -/

/-- The errors of decompilation before simplification. -/
inductive NoCode : Error → Prop where
  /-- The constant `A` stands for nothing yet. -/
  | undefined : NoCode (.notImplemented (.undefinedConst .a))
  /-- `NIL` is not to be applied. -/
  | nil (as : List Term) : NoCode (.unmatched "decompile_stack" (stack (.const .nil) (stackAll as (.const .nil))))

/-- The table of decompilation is to keep terms readable. -/
def readableSpec : Plan.Spec Task Term where
  input
    | .spine h as | .onto h as => h.Readable ∧ ∀ a ∈ as, a.Readable
  name n := isNameToken n = true
  result := Readable
  error := NoCode

section

variable {h : Term} {as : List Term}

@[simp] theorem readableSpec_spine :
    readableSpec.input (.spine h as) ↔ h.Readable ∧ ∀ a ∈ as, a.Readable := Iff.rfl

@[simp] theorem readableSpec_onto :
    readableSpec.input (.onto h as) ↔ h.Readable ∧ ∀ a ∈ as, a.Readable := Iff.rfl

@[simp] theorem readableSpec_name {n : String} : readableSpec.name n ↔ isNameToken n = true := Iff.rfl

@[simp] theorem readableSpec_result : readableSpec.result t ↔ t.Readable := Iff.rfl

@[simp] theorem readableSpec_error {e : Error} : readableSpec.error e ↔ NoCode e := Iff.rfl

theorem meets_operatorPlan {b : Binary} (has : ∀ a ∈ as, a.Readable) : (operatorPlan b as).Meets readableSpec := by
  unfold operatorPlan
  split <;> simp_all

theorem meets_comparisonPlan {b : Binary} (has : ∀ a ∈ as, a.Readable) :
    (comparisonPlan b as).Meets readableSpec := by
  unfold comparisonPlan
  split <;> simp_all

theorem meets_ontoPlan (ht : t.Readable) (has : ∀ a ∈ as, a.Readable) : (ontoPlan t as).Meets readableSpec := by
  unfold ontoPlan
  split <;> simp_all

theorem meets_spinePlan (hh : h.Readable) (has : ∀ a ∈ as, a.Readable) : (spinePlan h as).Meets readableSpec := by
  unfold spinePlan
  split <;> simp_all [meets_operatorPlan, meets_comparisonPlan, NoCode.undefined, NoCode.nil, fixpoint,
    reversedApplication, reversedComposition, closure, reflexiveClosure, closureOfJoin, compAll]

end

/-- Every row of the table keeps terms readable, so decompilation does. -/
theorem outcome_decompileRaw (ht : t.Readable) : Outcome Readable NoCode t.decompileRaw := by
  have hplan : ∀ i, readableSpec.input i → (decompilePlan i).Meets readableSpec := by
    intro i hi
    cases i with
    | spine h as => exact meets_spinePlan hi.1 hi.2
    | onto h as => exact meets_ontoPlan hi.1 hi.2
  exact obeys_decompileTask.meets NameSupply.isNameToken_draw hplan (i := .spine t []) ⟨ht, List.forall_mem_nil _⟩
    (.avoiding t.names)

theorem outcome_decompile (ht : t.Readable) : Outcome Readable (fun e => NoCode e ∨ BoundTwice e) t.decompile := by
  refine .bind ((outcome_decompileRaw ht).mono (fun _ => id) fun _ => .inl) fun u hu => ?_
  exact (outcome_simplify hu).mono (fun _ => id) fun _ => .inr

/-! ### Grouping -/

theorem outcome_groupPattern (hp : p.Readable) :
    Outcome Readable (fun e => ∃ part, e = .unmatched "parenthesize_pattern" part) p.groupPattern := by
  fun_induction groupPattern p with
  | case1 n => exact hp
  | case2 x ih => exact (ih hp).bind fun _ => id
  | case3 x ih => exact (ih hp).bind fun _ => id
  | case4 t => exact ⟨t, rfl⟩

/-- Grouping refuses what has no infix notation. -/
def Ungrouped (e : Error) : Prop :=
  ∃ part, e = .unmatched "parenthesize_pattern" part ∨ e = .unmatched "parenthesize_atom" part

theorem readable_bracket {asked own : Level} (ht : t.Readable) : (Level.bracket asked own t).Readable := by
  unfold Level.bracket
  split
  · exact ht
  · exact ht

theorem outcome_groupAt (ht : t.Readable) (l : Level) : Outcome Readable Ungrouped (t.groupAt l) := by
  have pattern {p : Term} (hp : p.Readable) : Outcome Readable Ungrouped p.groupPattern :=
    (outcome_groupPattern hp).mono (fun _ => id) fun _ ⟨part, h⟩ => ⟨part, .inl h⟩
  fun_induction groupAt t l with
  | case1 | case2 => exact ht
  | case3 _ x ih | case4 _ x ih | case5 x l ih => exact (ih ht).bind fun _ => id
  | case6 x y l ihx ihy | case7 x y l ihx ihy | case8 x y l ihx ihy =>
    rw [readable_binary] at ht
    exact (ihx ht.1).bind fun _ hx => (ihy ht.2).bind fun _ hy => readable_bracket (readable_binary.2 ⟨hx, hy⟩)
  | case9 _ x y ihx ihy | case10 _ x y ihx ihy | case11 _ x y ihx ihy | case12 _ x y ihx ihy =>
    rw [readable_binary] at ht
    exact (ihx ht.1).bind fun _ hx => (ihy ht.2).bind fun _ hy => readable_binary.2 ⟨hx, hy⟩
  | case13 p e l ihe =>
    rw [readable_lambda] at ht
    exact (pattern ht.1).bind fun _ hp => (ihe ht.2).bind fun _ he => readable_bracket (readable_lambda.2 ⟨hp, he⟩)
  | case14 p d e l ihd ihe =>
    rw [readable_letrec] at ht
    exact (pattern ht.1).bind fun _ hp => (ihd ht.2.1).bind fun _ hd => (ihe ht.2.2).bind fun _ he =>
      readable_bracket (readable_letrec.2 ⟨hp, hd, he⟩)
  | case15 t => exact ⟨_, .inr rfl⟩

theorem outcome_group (ht : t.Readable) : Outcome Readable Ungrouped t.group := by
  fun_induction group t with
  | case1 x y =>
    rw [readable_binary] at ht
    exact (outcome_groupAt ht.1 _).bind fun _ hx => (outcome_groupAt ht.2 _).bind fun _ hy =>
      readable_binary.2 ⟨hx, hy⟩
  | case2 x =>
    rw [readable_unary] at ht
    exact (outcome_groupAt ht _).bind fun _ => readable_unary.2
  | case3 x ih => exact (ih ht).bind fun _ => id
  | case4 t => exact outcome_groupAt ht _

/-! ### Spines -/

theorem readable_stackAll {as : List Term} (has : ∀ a ∈ as, a.Readable) (ht : t.Readable) :
    (stackAll as t).Readable := by
  induction as with
  | nil => exact ht
  | cons a as ih =>
    rw [List.forall_mem_cons] at has
    exact readable_binary.2 ⟨has.1, ih has.2⟩

theorem readable_toStackOnto {as : List Term} (ht : t.Readable) (has : ∀ a ∈ as, a.Readable) (hu : u.Readable) :
    (toStackOnto t as u).Readable := by
  fun_induction toStackOnto t as u with
  | case1 args x y ih =>
    rw [readable_binary] at ht
    exact ih ht.1 (List.forall_mem_cons.2 ⟨ht.2, has⟩)
  | case2 args h => exact readable_binary.2 ⟨ht, readable_stackAll has hu⟩

theorem outcome_applyStack (ht : t.Readable) (hu : u.Readable) :
    Outcome Readable (fun e => ∃ part, e = .unmatched "from_stack" part) (applyStack t u) := by
  fun_induction applyStack t u with
  | case1 x => exact ht
  | case2 x y tail ih =>
    rw [readable_binary] at hu
    exact ih (readable_binary.2 ⟨ht, hu.1⟩) hu.2
  | case3 x t => exact ⟨_, rfl⟩

theorem outcome_fromStack (ht : t.Readable) :
    Outcome Readable (fun e => ∃ part, e = .unmatched "from_stack" part) t.fromStack := by
  unfold fromStack
  split
  · rw [readable_binary] at ht
    exact outcome_applyStack ht.1 ht.2
  · exact ⟨_, rfl⟩

/-! ### Rewriting -/

/-- The ways to rewrite a term. -/
inductive Rewriting where
  | compile
  | decompile
  | normalize
  | canonical
  | simplify
  | group
  | toStack
  | fromStack
  | substitute (n : String) (d : Term)

namespace Rewriting

/-- What a term is rewritten to. -/
def apply : Rewriting → Term → Except Error Term
  | compile, t => t.compile
  | decompile, t => t.decompile
  | normalize, t => .ok t.normalize
  | canonical, t => t.canonical
  | simplify, t => t.simplify
  | group, t => t.group
  | toStack, t => .ok t.toStack
  | fromStack, t => t.fromStack
  | substitute n d, t => .ok (Term.substitute n d t)

/-- What is put in the place of a variable is readable itself. -/
def Admissible : Rewriting → Prop
  | substitute _ d => d.Readable
  | _ => True

/-- The errors with which a rewriting refuses a readable term. -/
def Refuses : Rewriting → Error → Prop
  | compile, e => ∃ what, e = .notImplemented what
  | decompile, e => NoCode e ∨ BoundTwice e
  | canonical, e | simplify, e => BoundTwice e
  | group, e => Ungrouped e
  | fromStack, e => ∃ part, e = .unmatched "from_stack" part
  | normalize, _ | toStack, _ | substitute _ _, _ => False

theorem outcome_apply (r : Rewriting) (hr : r.Admissible) (ht : t.Readable) :
    Outcome Readable r.Refuses (r.apply t) := by
  cases r with
  | compile => exact outcome_compile ht
  | decompile => exact outcome_decompile ht
  | normalize => exact (simplifies_normalize t).readable ht
  | canonical => exact outcome_canonical ht
  | simplify => exact outcome_simplify ht
  | group => exact outcome_group ht
  | toStack => exact readable_toStackOnto ht (List.forall_mem_nil _) (readable_const _)
  | fromStack => exact outcome_fromStack ht
  | substitute n d => exact readable_substitute hr ht

/-- What is done to rewrite a term by the tables. -/
def script : Rewriting → Term → Rewrite Term
  | compile, t => Tables.compile t
  | decompile, t => Tables.decompile t
  | normalize, t => Tables.normalize t
  | canonical, t => Tables.canonical t
  | simplify, t => Tables.simplify t
  | group, t => Tables.group t
  | toStack, t => Tables.toStack t
  | fromStack, t => Tables.fromStack t
  | substitute n d, t => Tables.substitute n d t

/-- Rewriting by the tables ends on every term, with the outcome of the rewriting. -/
theorem runs_script (r : Rewriting) (t : Term) : (r.script t).run.Runs Tables.answer (.ok (r.apply t)) := by
  have h : Attempt.exec Tables.answer (r.script t) = Run.ofOutcome (r.apply t) := by
    cases r <;> simp [script, apply]
  exact Script.run_eq_some_iff.1 h

/-- **Rewriting keeps terms printable**: rewriting a well-formed term with name tokens for names by the tables ends, and
it does not run into a fault. What the term is rewritten to is such a term, and is read back from its printed form.
Otherwise the rewriting refuses the term with one of its own errors. -/
theorem parse_print_apply (r : Rewriting) (hr : r.Admissible) (ht : t.WellFormed)
    (hn : ∀ n ∈ t.payloads, isNameToken n = true) :
    (r.script t).run.Runs Tables.answer (.ok (r.apply t)) ∧
      Outcome (fun u => u.WellFormed ∧ (∀ n ∈ u.payloads, isNameToken n = true) ∧ parse u.print = .ok u) r.Refuses
        (r.apply t) := by
  refine ⟨r.runs_script t, (r.outcome_apply hr ⟨ht, hn⟩).mono (fun u hu => ?_) fun _ => id⟩
  exact ⟨hu.1, hu.2, parse_of_readable hu (blankWords_print hu)⟩

/-- A binder that would capture `y` gets a drawn name, which can be read back. -/
theorem parse_print_apply_capture :
    Admissible (substitute "x" (.var "y")) ∧ (lambda (.var "y") (app (.var "y") (.var "x"))).WellFormed ∧
      (∀ n ∈ (lambda (.var "y") (app (.var "y") (.var "x"))).payloads, isNameToken n = true) ∧
      ((substitute "x" (.var "y")).script (lambda (.var "y") (app (.var "y") (.var "x")))).run.Runs Tables.answer
        (.ok (.ok (lambda (.var "a") (app (.var "a") (.var "y"))))) ∧
      parse (lambda (.var "a") (app (.var "a") (.var "y"))).print =
        .ok (lambda (.var "a") (app (.var "a") (.var "y"))) := by
  have hr : Admissible (substitute "x" (.var "y")) := readable_var.2 (by decide)
  have hw : (lambda (.var "y") (app (.var "y") (.var "x"))).WellFormed := by simp [WellFormed]
  have hn : ∀ n ∈ (lambda (.var "y") (app (.var "y") (.var "x"))).payloads, isNameToken n = true := by decide
  have hu : (substitute "x" (.var "y")).apply (lambda (.var "y") (app (.var "y") (.var "x"))) =
      .ok (lambda (.var "a") (app (.var "a") (.var "y"))) := by decide +kernel
  obtain ⟨hrun, houtcome⟩ := parse_print_apply (substitute "x" (.var "y")) hr hw hn
  rw [hu] at hrun houtcome
  exact ⟨hr, hw, hn, hrun, houtcome.2.2⟩

end Rewriting

end Term

end Combinatory
