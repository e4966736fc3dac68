import Combinatory.Grouping
import Combinatory.Proofs.Matching
import Combinatory.Proofs.Tables.Script

/-!
# Tables and their handlers

The tables that the rewritings are made of, how a script calls for them, and what the handlers of their rules can do.
-/

namespace Combinatory

/-! ### Tables and calls -/

/-- The tables. -/
inductive Table where
  /-- Puts the arguments of an application onto a spine. -/
  | toStack
  /-- Applies the first item of a spine to the others. -/
  | fromStack
  /-- Normalizes a spine. -/
  | normalizeStack
  /-- Normalizes the arguments of a spine. -/
  | normalizeTail
  /-- Renames the variables of a binder. -/
  | renamePattern
  /-- Renames the bound variables of a term. -/
  | renameTerm
  /-- Draws a variable out of a term. -/
  | bracket
  /-- Compiles a term. -/
  | compile
  /-- Decompiles a spine. -/
  | decompileStack
  /-- Decompiles the arguments of a spine. -/
  | decompileTail
  /-- Groups the pattern of a binder. -/
  | groupPattern
  /-- Groups a term at a level. -/
  | groupAt (l : Level)
  /-- Groups a whole term. -/
  | group
  deriving DecidableEq, Repr

/-- What is kept while binders are renamed. -/
structure Renaming where
  /-- The names of the binders around, with their new names, the innermost last. -/
  scope : List (String × String)
  /-- Where the names of the innermost binder start. -/
  start : Nat
  /-- The supply of new names. -/
  supply : NameSupply

/-- What a name is renamed to, by the innermost binder that has it. -/
def Renaming.lookup (r : Renaming) (n : String) : Option String := r.scope.reverse.lookup n

namespace Table

/-- The name of a table. -/
def name : Table → String
  | toStack => "to_stack"
  | fromStack => "from_stack"
  | normalizeStack => "normalize_stack"
  | normalizeTail => "normalize_tail"
  | renamePattern => "rename_pattern"
  | renameTerm => "rename_term"
  | bracket => "try_abstract"
  | compile => "compile"
  | decompileStack => "decompile_stack"
  | decompileTail => "decompile_tail"
  | groupPattern => "parenthesize_pattern"
  | groupAt .atom => "parenthesize_atom"
  | groupAt .comp => "parenthesize_comp"
  | groupAt .app => "parenthesize_app"
  | groupAt .join => "parenthesize_join"
  | groupAt .inline => "parenthesize_inline"
  | group => "parenthesize"

/-- The context that the handlers of a table keep. -/
abbrev Context : Table → Type
  | toStack => Term
  | renamePattern | renameTerm => Renaming
  | bracket => String
  | decompileStack | decompileTail => NameSupply
  | _ => Unit

/-- What a table gives. -/
abbrev Result : Table → Type
  | bracket => Option Term
  | _ => Term

end Table

/-- What a script calls for. -/
inductive Call where
  /-- A table, applied to a term in a context. -/
  | table (τ : Table) (t : Term) (context : τ.Context)
  /-- A substitution. -/
  | substitute (n : String) (d t : Term)

/-- How a call is answered. -/
abbrev Call.Answer : Call → Type
  | table τ _ _ => Except Error (τ.Result × τ.Context)
  | substitute _ _ _ => Except Error Term

/-- A script that calls for tables and substitutions, and may fail. -/
abbrev Rewrite (α : Type) : Type := Attempt Call Call.Answer α

/-- What the handlers of rules do. -/
abbrev Handler (σ α : Type) : Type := Handling Call Call.Answer σ α

namespace Tables

variable {σ : Type}

/-- Applies a table to a term. -/
def apply (τ : Table) (t : Term) : Handler τ.Context τ.Result := fun context =>
  ExceptT.mk (.call (.table τ t context) .done)

/-- Replaces the free occurrences of a variable. -/
def substitute (n : String) (d t : Term) : Rewrite Term := ExceptT.mk (.call (.substitute n d t) .done)

/-! ### Calls of single tables -/

/-- Puts the arguments of an application, and its head, onto the spine in the context. -/
def pushOnto (t : Term) : Handler Term Term := apply .toStack t

/-- The application that a spine stands for. -/
def fromStack (s : Term) : Rewrite Term := (apply .fromStack s).inContext ()

/-- Normalizes a spine. -/
def normalizeStack (s : Term) : Rewrite Term := (apply .normalizeStack s).inContext ()

/-- Normalizes the arguments of a spine. -/
def normalizeTail (tail : Term) : Rewrite Term := (apply .normalizeTail tail).inContext ()

/-- Renames the variables of a binder. -/
def renamePattern (t : Term) : Handler Renaming Term := apply .renamePattern t

/-- Renames the bound variables of a term. -/
def renameTerm (t : Term) : Handler Renaming Term := apply .renameTerm t

/-- Draws the variable in the context out of a term. -/
def bracketHere (t : Term) : Handler String (Option Term) := apply .bracket t

/-- The combinator code of a term. -/
def compile (t : Term) : Rewrite Term := (apply .compile t).inContext ()

/-- Decompiles a spine. -/
def decompileStack (s : Term) : Handler NameSupply Term := apply .decompileStack s

/-- Decompiles the arguments of a spine. -/
def decompileTail (tail : Term) : Handler NameSupply Term := apply .decompileTail tail

/-- Groups the pattern of a binder. -/
def groupPattern (t : Term) : Rewrite Term := (apply .groupPattern t).inContext ()

/-- Groups a term that stands in a position of the given level. -/
def groupAt (l : Level) (t : Term) : Rewrite Term := (apply (.groupAt l) t).inContext ()

/-- Groups a whole term. -/
def group (t : Term) : Rewrite Term := (apply .group t).inContext ()

/-! ### What handlers read and build -/

/-- What a variable of the pattern is bound to. -/
def read (b : Bindings) (n : String) : Handler σ Term :=
  match b.term n with
  | .ok t => pure t
  | .error f => Handling.fault (.binding f)

/-- The name that a variable of the pattern is bound to. -/
def readName (b : Bindings) (n : String) : Handler σ String :=
  match b.nameOf n with
  | .ok m => pure m
  | .error f => Handling.fault (.binding f)

/-- The term at a position. -/
def child (args : List Term) (i : Nat) : Handler σ Term :=
  match args[i]? with
  | some t => pure t
  | none => Handling.fault (.position i)

/-- The node with the given head over the given terms. -/
def rebuild (h : Head) (args : List Term) : Handler σ Term :=
  match Term.ofParts? h.spelling args with
  | some t => pure t
  | none => Handling.fault (.misfit h args)

/-- Rewrites the terms below the head, from left to right. -/
def mapArgs (f : Term → Handler σ Term) (t : Term) : Handler σ Term :=
  match t.layer with
  | .name _ | .node (.const _) _ => return t
  | .node h args => do rebuild h (← args.mapM f)

/-- A variable of a pattern. -/
def any (n : String) : Pattern := .var n none

/-- A variable of a pattern for terms that pass a test. -/
def anyIf (n : String) (test : Term → Bool) : Pattern := .var n (some test)

/-- A pattern with a head. -/
def node (h : Head) (ps : List Pattern) : Pattern := .node h.spelling ps

/-- A constant as a pattern. -/
def constant (o : Const) : Pattern := .literal (.const o)

/-- The rule that commits to what the handler gives, whenever the pattern matches. -/
def commit {α : Type} (pattern : Pattern) (f : Bindings → Handler σ α) : Rule (Handler σ) α where
  pattern := pattern
  handler := fun b => return some (← f b)

end Tables

end Combinatory
