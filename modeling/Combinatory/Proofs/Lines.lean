import Combinatory.Storage
import Combinatory.Proofs.Readability
import Combinatory.Proofs.Recompilation

/-!
# Lines are kept

A line is a term with a wrapper: `DEFINE VAR n` for a definition of `n`, `ASSERT` for an assertion. Reading, printing,
loading and dumping a line work on the term below the wrapper and keep the wrapper. The defined name is a variable like
others, but nothing renames it, and no binder takes it.

## The model

`Line.wrap name body` is the term of a line. Each pass has an equation for wrapped terms: decompilation, normalization,
the choice of canonical names and compilation. Normalization does not go below the wrapper. So the λ-term of a line is
not simplified, while the λ-term of code is.

## What is proved

* `Line.kept_line` — the kind of a line and its name are kept along every path.
* `Line.load_assertion_iff` — an assertion is loaded as its code is, below `ASSERT`, if and only if the decompiled code is
  normal; the body of the line can be simplified to the λ-term of the code.
-/

namespace Combinatory

namespace Fresh

theorem runWith_map {α β : Type} (f : α → β) (x : Fresh α) (s : NameSupply) :
    ((f <$> x).runWith s).1 = f <$> (x.runWith s).1 := by
  rw [map_eq_pure_bind, runWith_bind]
  rcases x.runWith s with ⟨e | a, s'⟩ <;> rfl

end Fresh

open Term

namespace Line

variable {l : Line} {name : Option String} {b c r t : Term}

/-! ### Wrappers -/

/-- The term of a line that defines the given name, or of an assertion if there is none. -/
def wrap (name : Option String) (body : Term) : Term :=
  match name with
  | none => .assert body
  | some n => .define (.var n) body

theorem exists_wrap_of_parse (h : l.parse = .ok t) :
    (∀ n ∈ l.name, isNameToken n = true) ∧ ∃ c, Term.parse l.code = .ok c ∧ t = wrap l.name c := by
  obtain ⟨c, hc, ht⟩ := bind_eq_ok.1 h
  cases hname : l.name with
  | none =>
    rw [hname] at ht
    exact ⟨nofun, c, hc, (pure_eq_ok.1 ht).symm⟩
  | some n =>
    simp only [hname] at ht
    split at ht
    · next hn => exact ⟨fun m hm => Option.mem_some.1 hm ▸ hn, c, hc, (pure_eq_ok.1 ht).symm⟩
    · cases ht

theorem parse_of_wrap (hl : ∀ n ∈ l.name, isNameToken n = true) (hc : Term.parse l.code = .ok c) :
    l.parse = .ok (wrap l.name c) := by
  refine bind_eq_ok.2 ⟨c, hc, ?_⟩
  cases hname : l.name with
  | none => rfl
  | some n => exact if_pos (hl n hname)

theorem ofTerm_wrap (name : Option String) (b : Term) : ofTerm (wrap name b) = .ok ⟨name, b.print⟩ := by
  cases name <;> rfl

theorem readable_wrap : (wrap name b).Readable ↔ (∀ n ∈ name, isNameToken n = true) ∧ b.Readable := by
  cases name <;> simp [wrap]

/-! ### Passes below a wrapper -/

theorem decompileSpine_wrap (name : Option String) (c : Term) :
    decompileSpine (wrap name c) [] = wrap name <$> decompileSpine c [] := by
  cases name with
  | none =>
    simp only [wrap, decompileSpine, decompileOnto, bind_pure_comp]
    rfl
  | some n =>
    simp only [wrap, decompileSpine, decompileOnto, pure_bind, bind_pure_comp]
    rfl

theorem decompileRaw_wrap (name : Option String) (c : Term) : (wrap name c).decompileRaw =
    wrap name <$> (c.decompileWith.runWith (.avoiding (wrap name c).names)).1 := by
  rw [decompileRaw, decompileWith, decompileSpine_wrap, Fresh.runWith_map]
  rfl

/-- Nothing is reduced below the wrapper. -/
theorem normalize_wrap (name : Option String) (r : Term) : (wrap name r).normalize = wrap name r := by
  have hs : Stuck (wrap name r) [] := by
    cases name <;> constructor <;> simp [wrap]
  exact normalize_of_normal (.spine hs (List.forall_mem_nil _))

theorem canonicalIn_wrap (name : Option String) (r : Term) :
    (wrap name r).canonicalIn [] = wrap name <$> r.canonicalIn [] := by
  cases name with
  | none =>
    simp only [wrap, canonicalIn, bind_pure_comp]
    rfl
  | some n =>
    simp only [wrap, canonicalIn, pure_bind, bind_pure_comp]
    rfl

theorem simplify_wrap (name : Option String) (r : Term) : (wrap name r).simplify =
    wrap name <$> ((r.canonicalIn []).runWith (.avoiding (wrap name r).freeNames)).1 := by
  rw [simplify, normalize_wrap, canonical, canonicalIn_wrap, Fresh.runWith_map]

theorem compile_wrap (name : Option String) (b : Term) : (wrap name b).compile = wrap name <$> b.compile := by
  cases name with
  | none => rfl
  | some n => rfl

/-! ### Reading and printing -/

theorem ofTerm_of_parse (h : l.parse = .ok t) :
    ofTerm t = .ok { l with code := " ".intercalate (blankWords l.code) } := by
  obtain ⟨-, c, hc, rfl⟩ := exists_wrap_of_parse h
  rw [ofTerm_wrap, (readable_of_parse hc).2]
  rfl

theorem parse_print_wrap (h : (wrap name b).Readable) : parse ⟨name, b.print⟩ = .ok (wrap name b) := by
  obtain ⟨hname, hb⟩ := readable_wrap.1 h
  exact parse_of_wrap hname (parse_of_readable hb (blankWords_print hb))

/-! ### Loading and dumping -/

/-- The λ-term of a line has the wrapper of the line, and no binder below it takes the defined name. -/
theorem exists_wrap_of_load (h : l.load = .ok t) : ∃ b, t = wrap l.name b ∧ ∀ n ∈ l.name, n ∉ b.boundNames := by
  obtain ⟨w, hw, h⟩ := bind_eq_ok.1 h
  obtain ⟨hname, c, hc, rfl⟩ := exists_wrap_of_parse hw
  obtain ⟨v, hv, h⟩ := bind_eq_ok.1 h
  have hread : v.Readable :=
    Outcome.of_ok (outcome_decompileRaw (readable_wrap.2 ⟨hname, (readable_of_parse hc).1⟩)) hv
  rw [decompileRaw_wrap, map_eq_ok] at hv
  obtain ⟨r, -, rfl⟩ := hv
  have hform : CanonicalForm (wrap l.name r) t := by
    rw [simplify, normalize_wrap] at h
    exact (canonicalForm_canonical hread.1 h).2
  rw [simplify_wrap, map_eq_ok] at h
  obtain ⟨b, -, rfl⟩ := h
  refine ⟨b, rfl, fun n hn hb => ?_⟩
  -- the defined name is free in the line, and binders take none of the free names
  rw [hn] at hform
  exact hform.not_mem_freeNames (n := n) (List.mem_append_right _ hb)
    (mem_freeNames.2 (List.mem_append_left _ List.mem_cons_self))

theorem dump_wrap (name : Option String) (b : Term) : dump (wrap name b) = Line.mk name <$> b.dump := by
  rw [dump, compile_wrap, Term.dump]
  cases b.compile with
  | error e => rfl
  | ok c => exact ofTerm_wrap name c

/-- **Lines are kept.** A line that is read and printed is the line with single blanks, and a term of a line that is
printed and read is the term. The λ-term of a line has the kind of the line and the name that it defines, which no binder
takes, and it is dumped to a line of that name. -/
theorem kept_line (l : Line) :
    (∀ t, l.parse = .ok t → ofTerm t = .ok { l with code := " ".intercalate (blankWords l.code) }) ∧
      (∀ t, t.WellFormed → (∀ n ∈ t.payloads, isNameToken n = true) →
        ((∃ n b, t = .define (.var n) b) ∨ ∃ b, t = .assert b) → (ofTerm t >>= parse) = .ok t) ∧
      ∀ t, l.load = .ok t →
        (∀ n, l.name = some n → ∃ b, t = .define (.var n) b ∧ n ∉ b.boundNames) ∧
        (l.name = none → ∃ b, t = .assert b) ∧ ∀ l', dump t = .ok l' → l'.name = l.name := by
  refine ⟨fun t => ofTerm_of_parse, fun t hw hn ht => ?_, fun t h => ?_⟩
  · obtain ⟨name, b, rfl⟩ : ∃ name b, t = wrap name b := by
      obtain ⟨n, b, rfl⟩ | ⟨b, rfl⟩ := ht
      · exact ⟨some n, b, rfl⟩
      · exact ⟨none, b, rfl⟩
    rw [ofTerm_wrap]
    exact parse_print_wrap ⟨hw, hn⟩
  · obtain ⟨b, rfl, hb⟩ := exists_wrap_of_load h
    refine ⟨fun n hn => ⟨b, by rw [hn]; rfl, hb n hn⟩, fun hn => ⟨b, by rw [hn]; rfl⟩, fun l' hl' => ?_⟩
    rw [dump_wrap, map_eq_ok] at hl'
    obtain ⟨source, -, rfl⟩ := hl'
    rfl

/-- A definition of the name that fresh names begin with, for code that is written with a tab and needs a fresh name. -/
theorem kept_line_first_name :
    ofTerm (.define (.var "a") (app (.const .k) (.var "b"))) = .ok (.definition "a" "APP K VAR b") ∧
      (ofTerm (.define (.var "a") (app (.const .k) (.var "b"))) >>= parse) =
        .ok (.define (.var "a") (app (.const .k) (.var "b"))) ∧
      load (.definition "a" "APP K\tVAR b") = .ok (.define (.var "a") (.lambda (.var "c") (.var "b"))) ∧
      "a" ∉ (Term.lambda (.var "c") (.var "b")).boundNames ∧
      ∀ l', dump (.define (.var "a") (.lambda (.var "c") (.var "b"))) = .ok l' → l'.name = some "a" := by
  have hload : load (.definition "a" "APP K\tVAR b") = .ok (.define (.var "a") (.lambda (.var "c") (.var "b"))) := by
    decide +kernel
  obtain ⟨hprint, hread, hloaded⟩ := kept_line (.definition "a" "APP K\tVAR b")
  obtain ⟨hname, -, hdump⟩ := hloaded _ hload
  obtain ⟨b, hb, hbound⟩ := hname "a" rfl
  cases hb
  refine ⟨(hprint _ (by decide +kernel)).trans (by decide +kernel), ?_, hload, hbound, hdump⟩
  exact hread _ (by simp [WellFormed]) (by decide) (.inl ⟨"a", _, rfl⟩)

/-! ### Assertions and their code -/

theorem load_assertion_eq_ok_iff {source : String} (hc : Term.parse source = .ok c) (hr : c.decompileRaw = .ok r) :
    Line.load (.assertion source) = .ok (.assert b) ↔ r.canonical = .ok b := by
  have hload : Line.load (.assertion source) = Term.assert <$> r.canonical := by
    rw [load, parse_of_wrap (l := .assertion source) (fun _ hn => nomatch hn) hc]
    show (wrap none c).decompile = _
    rw [decompile, decompileRaw_wrap]
    -- without a name the wrapper has no names, so the fresh names are those of the code
    change ((wrap none <$> c.decompileRaw) >>= simplify) = _
    rw [hr]
    exact simplify_wrap none r
  rw [hload, map_eq_ok]
  constructor
  · rintro ⟨b', hb', h⟩
    cases h
    exact hb'
  · intro hb
    exact ⟨b, hb, rfl⟩

/-- **An assertion is its code below `ASSERT`** if and only if the decompiled code is normal, since nothing is reduced
below the wrapper. Code without binders is loaded as an assertion in any case; the body is the decompiled code up to
bound names, and is simplified to the λ-term of the code. -/
theorem load_assertion_iff {source : String} {t : Term} (h : Term.load source = .ok t) :
    ∃ c r, Term.parse source = .ok c ∧ c.decompileRaw = .ok r ∧
      (Line.load (.assertion source) = .ok (.assert t) ↔ r.Normal) ∧
      (c.BinderFree →
        ∃ b, Line.load (.assertion source) = .ok (.assert b) ∧ AlphaEq b r ∧ b.simplify = .ok t) := by
  obtain ⟨c, hc, h⟩ := bind_eq_ok.1 h
  obtain ⟨r, hr, h⟩ := bind_eq_ok.1 h
  have hread := (readable_of_parse hc).1
  have hwf : r.WellFormed := (Outcome.of_ok (outcome_decompileRaw hread) hr).1
  refine ⟨c, r, hc, hr, ?_, fun hbinders => ?_⟩
  · rw [load_assertion_eq_ok_iff hc hr]
    exact canonical_eq_ok_iff_normal hwf h
  · obtain ⟨htidy, hlinear⟩ := tidy_decompileRaw hread.1 hbinders hr
    obtain ⟨b, hb⟩ := exists_canonical hwf hlinear
    have hform := (canonicalForm_canonical hwf hb).2
    exact ⟨b, (load_assertion_eq_ok_iff hc hr).2 hb, hform.alphaEq, hform.simplify_eq_ok htidy h⟩

/-- An argument is reduced by extensionality, but not below `ASSERT`. -/
theorem load_assertion_iff_argument :
    Term.load "APP VAR f COMP VAR g I" = .ok (app (.var "f") (.var "g")) ∧
      ∃ r, ¬r.Normal ∧
        ∃ b, Line.load (.assertion "APP VAR f COMP VAR g I") = .ok (.assert b) ∧ AlphaEq b r ∧
          b.simplify = .ok (app (.var "f") (.var "g")) := by
  have hload : Term.load "APP VAR f COMP VAR g I" = .ok (app (.var "f") (.var "g")) := by decide +kernel
  obtain ⟨c, r, hc, -, hnormal, hbody⟩ := load_assertion_iff hload
  have hcode : Term.parse "APP VAR f COMP VAR g I" = .ok (app (.var "f") (.comp (.var "g") (.const .i))) := by
    decide +kernel
  obtain rfl : app (.var "f") (.comp (.var "g") (.const .i)) = c := by simpa using hcode.symm.trans hc
  refine ⟨hload, r, fun hr => ?_, hbody (by simp [BinderFree])⟩
  exact absurd (hnormal.2 hr) (by decide +kernel)

/-- The assertion of `f` after the identity is loaded as an abstraction, where the code itself is loaded as `f`. -/
theorem not_load_assertion_eta :
    Term.load "COMP VAR f I" = .ok (.var "f") ∧
      Line.load (.assertion "COMP VAR f I") = .ok (.assert (.lambda (.var "a") (app (.var "f") (.var "a")))) ∧
      Line.load (.assertion "COMP VAR f I") ≠ .ok (.assert (.var "f")) := by
  decide +kernel

end Line

end Combinatory
