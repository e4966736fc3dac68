import Combinatory.Symbol

/-!
# Terms

Terms of the calculus: a head with as many children as its arity, or a bare name. λ-terms and combinator
code are the same type of terms over different vocabularies.

## The model

The children of a head are constructor arguments, so no term has the wrong number of them. A bare name is a
term of its own, but is not meant to stand anywhere: the name of a variable is part of `Term.var`.
`Term.WellFormed` excludes bare names, and the checked constructor in `Term.Build` refuses them. The
formers (`Term.app`, `Term.quote`, ...) take any term and may also be used as patterns.

A `Layer` is one level of a term as it is written: a head and the terms below it, whatever they are. The
layer of a variable has its name below the head.
-/

namespace Combinatory

/-- A term. -/
inductive Term where
  /-- A bare name. -/
  | name (n : String)
  /-- A constant. -/
  | const (o : Const)
  /-- `VAR n`: a variable. -/
  | var (n : String)
  /-- A head with one child. -/
  | unary (u : Unary) (x : Term)
  /-- A head with two children. -/
  | binary (b : Binary) (x y : Term)
  /-- `LAMBDA p e`: abstraction of the variables of the pattern `p` from `e`. -/
  | lambda (p e : Term)
  /-- `LETREC p d e`: in `e`, the variables of the pattern `p` are defined by `d`, which may use them. -/
  | letrec (p d e : Term)
  deriving DecidableEq, Repr, Inhabited

namespace Term

/-! ### Term formers -/

/-- `QUOTE x`. -/
@[match_pattern] abbrev quote (x : Term) : Term := .unary .quote x

/-- `PAREN x`. -/
@[match_pattern] abbrev paren (x : Term) : Term := .unary .paren x

/-- `CURSOR x`. -/
@[match_pattern] abbrev cursor (x : Term) : Term := .unary .cursor x

/-- `ASSERT x`. -/
@[match_pattern] abbrev assert (x : Term) : Term := .unary .assert x

/-- `APP x y`. -/
@[match_pattern] abbrev app (x y : Term) : Term := .binary .app x y

/-- `COMP x y`. -/
@[match_pattern] abbrev comp (x y : Term) : Term := .binary .comp x y

/-- `JOIN x y`. -/
@[match_pattern] abbrev join (x y : Term) : Term := .binary .join x y

/-- `RAND x y`. -/
@[match_pattern] abbrev rand (x y : Term) : Term := .binary .rand x y

/-- `DEFINE x y`. -/
@[match_pattern] abbrev define (x y : Term) : Term := .binary .define x y

/-- `STACK x y`. -/
@[match_pattern] abbrev stack (x y : Term) : Term := .binary .stack x y

/-- `LESS x y`. -/
@[match_pattern] abbrev less (x y : Term) : Term := .binary .less x y

/-- `NLESS x y`. -/
@[match_pattern] abbrev nless (x y : Term) : Term := .binary .nless x y

/-- `EQUAL x y`. -/
@[match_pattern] abbrev equal (x y : Term) : Term := .binary .equal x y

/-- `head` applied to `args`, from the left. -/
def appAll (head : Term) (args : List Term) : Term := args.foldl app head

/-- `head` composed with `args`, from the left. -/
def compAll (head : Term) (args : List Term) : Term := args.foldl comp head

/-- The spine with the given items in front of `tail`. -/
def stackAll (items : List Term) (tail : Term) : Term := items.foldr stack tail

@[simp] theorem appAll_nil (h : Term) : appAll h [] = h := rfl

@[simp] theorem appAll_cons (h a : Term) (as : List Term) : appAll h (a :: as) = appAll (app h a) as := rfl

@[simp] theorem stackAll_nil (t : Term) : stackAll [] t = t := rfl

@[simp] theorem stackAll_cons (x : Term) (xs : List Term) (t : Term) :
    stackAll (x :: xs) t = stack x (stackAll xs t) := rfl

theorem appAll_append (h : Term) (as bs : List Term) : appAll h (as ++ bs) = appAll (appAll h as) bs :=
  List.foldl_append

/-- What an application has if and only if both sides have it, a spine has if and only if all its parts do. -/
theorem appAll_iff {P : Term → Prop} (happ : ∀ x y, P (app x y) ↔ P x ∧ P y) {h : Term} {as : List Term} :
    P (h.appAll as) ↔ P h ∧ ∀ a ∈ as, P a := by
  induction as generalizing h with
  | nil => simp
  | cons a as ih => rw [appAll_cons, ih, happ, List.forall_mem_cons, and_assoc]

/-- A relation that application respects is one of spines with related parts. -/
theorem rel_appAll_map {R : Term → Term → Prop} (happ : ∀ {x x' y y'}, R x x' → R y y' → R (app x y) (app x' y'))
    {h h' : Term} (hh : R h h') {f : Term → Term} {as : List Term} (has : ∀ a ∈ as, R a (f a)) :
    R (h.appAll as) (h'.appAll (as.map f)) := by
  induction as generalizing h h' with
  | nil => exact hh
  | cons a as ih =>
    rw [List.forall_mem_cons] at has
    exact ih (happ hh has.1) has.2

theorem rel_appAll {R : Term → Term → Prop} (happ : ∀ {x x' y y'}, R x x' → R y y' → R (app x y) (app x' y'))
    (refl : ∀ a, R a a) {h h' : Term} (hh : R h h') (as : List Term) : R (h.appAll as) (h'.appAll as) := by
  have hmap : R (h.appAll as) (h'.appAll (as.map id)) := rel_appAll_map happ hh fun a _ => refl a
  rwa [List.map_id] at hmap

/-! ### Parts of a term -/

/-- One level of a written term. -/
inductive Layer where
  /-- A bare name. -/
  | name (n : String)
  /-- A head with terms below it. -/
  | node (head : Head) (args : List Term)
  deriving DecidableEq, Repr

/-- The outermost level of a term. -/
def layer : Term → Layer
  | .name n => .name n
  | .const o => .node (.const o) []
  | .var n => .node .var [.name n]
  | .unary u x => .node (.unary u) [x]
  | .binary b x y => .node (.binary b) [x, y]
  | .lambda p e => .node .lambda [p, e]
  | .letrec p d e => .node .letrec [p, d, e]

/-- Replaces the terms below the head; a bare name has none. -/
def Layer.map (f : Term → Term) : Layer → Layer
  | .name n => .name n
  | .node h args => .node h (args.map f)

/-- The head; a bare name has none. -/
def head? (t : Term) : Option Head :=
  match t.layer with
  | .name _ => none
  | .node h _ => some h

/-- The terms below the head. -/
def args (t : Term) : List Term :=
  match t.layer with
  | .name _ => []
  | .node _ args => args

/-- The name that a bare name is. -/
def asName? : Term → Option String
  | .name n => some n
  | _ => none

/-- The name of a variable. -/
def varName? : Term → Option String
  | .var n => some n
  | _ => none

/-- Whether the term is a bare name. -/
def isName (t : Term) : Bool := t.asName?.isSome

/-- Whether the term is a constant. -/
def isConst : Term → Bool
  | .const _ => true
  | _ => false

/-- Whether something stands below the head. -/
def isNode : Term → Bool
  | .name _ | .const _ => false
  | _ => true

/-- Whether the term is a variable. -/
def isVar (t : Term) : Bool := t.varName?.isSome

/-- Whether the term is the variable `n`. -/
def isVarNamed (n : String) (t : Term) : Bool := t.varName? == some n

/-- Whether the term binds variables. -/
def isBinder : Term → Bool
  | .lambda _ _ | .letrec _ _ _ => true
  | _ => false

/-- The number of heads in the term; bare names do not count. -/
def size : Term → Nat
  | .name _ => 0
  | .const _ | .var _ => 1
  | .unary _ x => x.size + 1
  | .binary _ x y => x.size + y.size + 1
  | .lambda p e => p.size + e.size + 1
  | .letrec p d e => p.size + d.size + e.size + 1

/-- There are no bare names. -/
def WellFormed : Term → Prop
  | .name _ => False
  | .const _ | .var _ => True
  | .unary _ x => x.WellFormed
  | .binary _ x y => x.WellFormed ∧ y.WellFormed
  | .lambda p e => p.WellFormed ∧ e.WellFormed
  | .letrec p d e => p.WellFormed ∧ d.WellFormed ∧ e.WellFormed

/-! ### Folding -/

/-- What stands below a head, with the children replaced by their results. -/
inductive Below (α : Type) where
  /-- A name. -/
  | name (n : String)
  /-- The results of the children. -/
  | children (results : List α)

/-- Folds a term from the leaves up, children from left to right. A variable is one step, given its name;
so is a name that stands alone. -/
def foldM {m : Type → Type} [Monad m] {α : Type} (f : Head → Below α → m α) : Term → m α
  | .name n | .var n => f .var (.name n)
  | .const o => f (.const o) (.children [])
  | .unary u x => do f (.unary u) (.children [← foldM f x])
  | .binary b x y => do
    let rx ← foldM f x
    let ry ← foldM f y
    f (.binary b) (.children [rx, ry])
  | .lambda p e => do
    let rp ← foldM f p
    let re ← foldM f e
    f .lambda (.children [rp, re])
  | .letrec p d e => do
    let rp ← foldM f p
    let rd ← foldM f d
    let re ← foldM f e
    f .letrec (.children [rp, rd, re])

end Term

end Combinatory
