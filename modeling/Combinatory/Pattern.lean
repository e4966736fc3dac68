import Combinatory.Error
import Combinatory.Symbol.Table
import Combinatory.Text.Quoted

/-!
# Patterns

A pattern is a term with variables that stand for subterms. Matching a pattern against a term binds the
variables; a variable may come with a constraint on what it binds.

## The model

The head of a node pattern is a spelling and is not checked when the pattern is made, so that a pattern can be
malformed: `Pattern.validate` says whether it is. A node pattern matches only terms with something below the
head, so it never matches a constant. `Pattern.bind` matches from left to right and collects the bindings in
that order; `Pattern.unify` does so for patterns in which no variable stands twice, and fails on the others.
-/

namespace Combinatory

/-- A pattern. -/
inductive Pattern where
  /-- Matches exactly this term. -/
  | literal (t : Term)
  /-- Matches any term that meets the constraint, if there is one. -/
  | var (name : String) (constraint : Option (Term → Bool))
  /-- Matches a node with this head and matching children. -/
  | node (head : String) (children : List Pattern)

/-- What the variables of a pattern are bound to, in the order of the pattern. -/
abbrev Bindings : Type := List (String × Term)

namespace Pattern

/-- The pattern of a spine with the given items in front of a tail. -/
def stack (items : List Pattern) (tail : Pattern) : Pattern :=
  items.foldr (fun item tail => .node Binary.stack.spelling [item, tail]) tail

/-! ### Variables -/

mutual

/-- The variables, from left to right. -/
def variableNames : Pattern → List String
  | .literal _ => []
  | .var n _ => [n]
  | .node _ ps => variableNamesAll ps

/-- The variables of several patterns. -/
def variableNamesAll : List Pattern → List String
  | [] => []
  | p :: ps => p.variableNames ++ variableNamesAll ps

end

/-- The first name of a list that stands in it before. -/
def firstRepeated : (seen names : List String) → Option String
  | _, [] => none
  | seen, n :: ns => if n ∈ seen then some n else firstRepeated (n :: seen) ns

/-- The first variable that stands a second time. -/
def repeated? (p : Pattern) : Option String := firstRepeated [] p.variableNames

/-- Whether no variable stands twice. -/
def isLinear (p : Pattern) : Bool := p.repeated?.isNone

/-! ### Display and validation -/

mutual

/-- The display form of a pattern. -/
def display : Pattern → String
  | .literal t => s!"Literal({t.display})"
  | .var n none => s!"Var(Variable({n}))"
  | .var n (some _) => s!"Var(Variable({n}, constrained))"
  | .node h ps => s!"Node({Text.quoted h}, [" ++ ", ".intercalate (displayAll ps) ++ "])"

/-- The display forms of several patterns. -/
def displayAll : List Pattern → List String
  | [] => []
  | p :: ps => p.display :: displayAll ps

end

mutual

/-- Whether every node has a declared head with as many children as its arity. -/
def checkHeads : Pattern → Except PatternFault Unit
  | .literal _ | .var _ _ => .ok ()
  | .node h ps => do
    match SymbolTable.standard.arity? h with
    | none => throw (.undeclared h)
    | some a => if a ≠ ps.length ∨ a = 0 then throw (.arity h a ps.length)
    checkHeadsAll ps

/-- `checkHeads` for several patterns, from left to right. -/
def checkHeadsAll : List Pattern → Except PatternFault Unit
  | [] => .ok ()
  | p :: ps => do
    p.checkHeads
    checkHeadsAll ps

end

/-- What is wrong with a pattern, if anything: first a repeated variable, then a head. -/
def check (p : Pattern) : Except PatternFault Unit := do
  if let some n := p.repeated? then throw (.repeated n p.display)
  p.checkHeads

/-- Refuses a malformed pattern, for use in the given table. -/
def validate (table : String) (p : Pattern) : Except Error Unit :=
  p.check.mapError (.malformedPattern table)

/-! ### Matching -/

/-- The spelling of the head and the terms below it, for a term that has some. -/
def nodeParts? (t : Term) : Option (String × List Term) :=
  match t.layer with
  | .node (.const _) _ | .name _ => none
  | .node h args => some (h.spelling, args)

mutual

/-- Matches a term and puts the bindings behind those made so far. -/
def bind : Pattern → Term → Bindings → Option Bindings
  | .literal l, t, bound => if l = t then some bound else none
  | .var n c, t, bound => if c.all (· t) then some (bound ++ [(n, t)]) else none
  | .node h ps, t, bound =>
    match nodeParts? t with
    | none => none
    | some (k, args) => if k = h then bindAll ps args bound else none

/-- Matches as many terms as there are patterns. -/
def bindAll : List Pattern → List Term → Bindings → Option Bindings
  | [], [], bound => some bound
  | p :: ps, t :: ts, bound => (p.bind t bound).bind fun bound => bindAll ps ts bound
  | _, _, _ => none

end

/-- The bindings that make a pattern equal to a term. A pattern in which a variable stands twice has none. -/
def unify (p : Pattern) (t : Term) : Option Bindings := if p.isLinear then p.bind t [] else none

end Pattern

/-! ### Looking up bindings -/

/-- Why a binding cannot be used. -/
inductive BindingFault where
  /-- The variable is not bound. -/
  | unbound (name : String)
  /-- The variable is not bound to a name. -/
  | notAName (name : String)
  deriving DecidableEq, Repr

/-- What is wrong with the binding. -/
def BindingFault.message : BindingFault → String
  | .unbound n => s!"pattern variable `{n}` is not bound"
  | .notAName n => s!"pattern variable `{n}` is not bound to a name"

namespace Bindings

/-- What a variable is bound to. -/
def term? (b : Bindings) (n : String) : Option Term := b.lookup n

/-- What a variable is bound to, which must be something. -/
def term (b : Bindings) (n : String) : Except BindingFault Term :=
  match b.term? n with
  | some t => .ok t
  | none => .error (.unbound n)

/-- The name that a variable is bound to. -/
def nameOf (b : Bindings) (n : String) : Except BindingFault String :=
  match (b.term? n).bind Term.asName? with
  | some name => .ok name
  | none => .error (.notAName n)

end Bindings

end Combinatory
