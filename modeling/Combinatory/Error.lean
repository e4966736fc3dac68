import Combinatory.Term.Print

/-!
# Errors

What can go wrong with terms, their written form and their rewriting. An error names its cause; the wording
of all of them is in `Error.message`.
-/

namespace Combinatory

/-- Why a source text cannot be split into tokens. -/
inductive LexFault where
  /-- A text of blanks only: there is no word where one is expected. -/
  | blank
  /-- A word that is neither a keyword nor a name. -/
  | word (w : String)
  deriving DecidableEq, Repr

/-- Why something is not a variable. -/
inductive NameFault where
  /-- `VAR` over something that is not a name. -/
  | notAName (found : Term)
  /-- A name below a head other than `VAR`. -/
  | bare (name : String) (below : Head)
  /-- A keyword where `VAR` is followed by a name. -/
  | keyword (word : String) (position : Nat)
  /-- A line is to define something that is not a name. -/
  | definition (name : String)
  /-- One binder binds a name twice. -/
  | boundTwice (name : String)
  deriving DecidableEq, Repr

/-- What is not supported. -/
inductive Unsupported where
  /-- Abstraction of a variable that occurs below a head through which it cannot be drawn. -/
  | abstraction (name : String) (body : Term)
  /-- A binder whose pattern is not a variable. -/
  | binder (t : Term)
  /-- A constant that stands for nothing yet. -/
  | undefinedConst (o : Const)
  /-- Anything that a rule refuses in its own words. -/
  | other (reason : String)
  deriving DecidableEq, Repr

/-- Why a rule table is refused. -/
inductive PatternFault where
  /-- A table without rules. -/
  | noRules
  /-- A variable that stands twice in the pattern, which is given in its display form. -/
  | repeated (name pattern : String)
  /-- A head that is not declared. -/
  | undeclared (head : String)
  /-- A head with the wrong number of children, or a constant used as a node. -/
  | arity (head : String) (declared given : Nat)
  deriving DecidableEq, Repr

/-- An error of the calculus. -/
inductive Error where
  /-- A word that starts no term, at a byte offset of the source. -/
  | unrecognized (word : String) (position : Nat)
  /-- The source ends where `missing` more words are needed at least. -/
  | unexpectedEnd (missing : Nat)
  /-- The source goes on after a complete term. -/
  | trailing (word : String) (position : Nat)
  /-- The source is not made of tokens. -/
  | lex (fault : LexFault)
  /-- Something is not a variable. -/
  | invalidVariable (fault : NameFault)
  /-- A symbol is declared a second time. -/
  | duplicateSymbol (name : String)
  /-- A head with the wrong number of children. -/
  | arityMismatch (head : String) (expected found : Nat)
  /-- A rule table is refused. -/
  | malformedPattern (table : String) (fault : PatternFault)
  /-- No rule of a table applies. -/
  | unmatched (table : String) (t : Term)
  /-- Something is not supported. -/
  | notImplemented (what : Unsupported)
  deriving DecidableEq, Repr

/-- What is wrong with the source text. -/
def LexFault.message : LexFault → String
  | .blank => "found end of input expected any"
  | .word w =>
    s!"invalid token '{w}': expected a keyword (FOO), a local name (x, a2) or a global name (foo.bar)"

/-- What is wrong with the variable. -/
def NameFault.message : NameFault → String
  | .notAName t => s!"VAR expects a name payload, got `{t.print}`"
  | .bare n h => s!"name `{n}` must be wrapped in VAR, found under {h.spelling}"
  | .keyword w p => s!"expected a name after VAR at position {p}, found keyword `{w}`"
  | .definition n => s!"`{n}` is not a valid definition name"
  | .boundTwice n => s!"`{n}` is bound twice by one binder pattern"

/-- What is not supported, in words. -/
def Unsupported.message : Unsupported → String
  | .abstraction v t => s!"abstraction of `{v}` from `{t.print}`"
  | .binder t => s!"compiling a binder that is not a bare variable: `{t.print}`"
  | .undefinedConst o => s!"the {o.spelling} combinator has no definition"
  | .other reason => reason

/-- What is wrong with the rule table. -/
def PatternFault.message : PatternFault → String
  | .noRules => "rule table has no rules"
  | .repeated v p => s!"variable `{v}` is bound more than once in {p}"
  | .undeclared h => s!"undeclared head `{h}`"
  | .arity h a n => s!"head `{h}` has arity {a} but pattern gives {n} children"

/-- The wording of an error. -/
def Error.message : Error → String
  | .unrecognized w p => s!"Unrecognized token `{w}` at position {p}."
  | .unexpectedEnd n => s!"Unexpected end of input: expected {n} more token(s)."
  | .trailing w p => s!"Trailing tokens after a complete term, starting with `{w}` at position {p}."
  | .lex f => s!"Failed to tokenize input: lexing error: {f.message}"
  | .invalidVariable f => s!"Invalid variable: {f.message}"
  | .duplicateSymbol n => s!"Duplicate symbol `{n}`: every symbol must be declared exactly once."
  | .arityMismatch h e n => s!"`{h}(...)` called with wrong number of arguments: expected {e}, found {n}."
  | .malformedPattern table f => s!"Bad pattern in rule table `{table}`: {f.message}"
  | .unmatched table t => s!"Unmatched expression in rule table `{table}`:\n  {t.print}"
  | .notImplemented what => s!"Not implemented: {what.message}"

/-! ### Outcomes -/

/-- A computation in two parts succeeds if both parts do. -/
theorem bind_eq_ok {ε α β : Type} {x : Except ε α} {k : α → Except ε β} {b : β} :
    x >>= k = .ok b ↔ ∃ a, x = .ok a ∧ k a = .ok b := by
  cases x with
  | error e => simp [bind, Except.bind]
  | ok a => simp [bind, Except.bind]

theorem pure_eq_ok {ε α : Type} {a b : α} : (pure a : Except ε α) = .ok b ↔ a = b := by
  simp [pure, Except.pure]

theorem map_eq_ok {ε α β : Type} {x : Except ε α} {f : α → β} {b : β} :
    f <$> x = .ok b ↔ ∃ a, x = .ok a ∧ f a = b := by
  cases x with
  | error e => simp [Functor.map, Except.map]
  | ok a => simp [Functor.map, Except.map]

end Combinatory
