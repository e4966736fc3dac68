import Combinatory.Abstraction
import Combinatory.Decompile
import Combinatory.Spine
import Combinatory.Proofs.Tables.Basic

/-!
# The rules of the tables

The rules of all tables, and how calls for tables and substitutions are answered.

## The model

A rule that matches commits, with two exceptions: the η-law declines where the variable is used elsewhere, and the rule
for derived combinators where there is no definition. Within a table the order of the rules matters. Handlers go on by
calls; those of one table call for others, as the decompiler for spines, and all of them may call for their own table.

Substitution is not made of rules, but goes on by calls as well: it looks at the head of the term and puts the node
together again from what has become of the terms below it.
-/

namespace Combinatory.Tables

open Term (stack stackAll appAll)

variable {σ : Type}

/-! ### Spines -/

/-- The rules that put the arguments of an application onto the spine in the context. -/
def toStackRules : List (Rule (Handler Term) Term) :=
  [commit (node (.binary .app) [any "x", any "y"]) fun b => do
     let y ← read b "y"
     modify (stack y)
     pushOnto (← read b "x"),
   commit (any "x") fun b => do
     let x ← read b "x"
     let tail ← getModify fun _ => .const .nil
     return stack x tail]

/-- The rules that apply the first item of a spine to the others. -/
def fromStackRules : List (Rule (Handler Unit) Term) :=
  [commit (.stack [any "x", any "y"] (any "tail")) fun b => do
     fromStack (stack (.app (← read b "x") (← read b "y")) (← read b "tail")),
   commit (.stack [any "x"] (constant .nil)) fun b => read b "x"]

/-- The spine of `head` applied to `args`, with `tail` at its end. -/
def toStackOnto (head : Term) (args : List Term) (tail : Term) : Rewrite Term :=
  (pushOnto head).inContext (stackAll args tail)

/-- The spine of a term. -/
def toStack (t : Term) : Rewrite Term := toStackOnto t [] (.const .nil)

/-! ### Normalization -/

/-- Normalizes a term. -/
def normalize (t : Term) : Rewrite Term := do normalizeStack (← toStack t)

/-- Goes on with `head` applied to the arguments in `tail`. -/
def resume (head tail : Term) : Rewrite Term := do normalizeStack (← toStackOnto head [] tail)

/-- Leaves the head and normalizes the arguments. -/
def stuck (head tail : Term) : Rewrite Term := do fromStack (stack head (← normalizeTail tail))

/-- The handler that goes on with the term that is bound to `x`. -/
def continueWithX (b : Bindings) : Handler Unit Term := do resume (← read b "x") (← read b "tail")

/-- The handler for a head that stays as it is. -/
def stuckWithX (b : Bindings) : Handler Unit Term := do stuck (← read b "x") (← read b "tail")

/-- The handler of the η-law. -/
def eta (b : Bindings) : Handler Unit (Option Term) := do
  let n ← readName b "name"
  let m ← readName b "name2"
  let x ← read b "x"
  if n ≠ m ∨ x.count n ≠ 0 then return none
  return some (← resume x (← read b "tail"))

/-- The handler of the β-law for a variable. -/
def betaVar (b : Bindings) : Handler Unit Term := do
  let head ← substitute (← readName b "name") (.var (← readName b "name2")) (← read b "x")
  resume head (← read b "tail")

/-- The handler of the β-law for other arguments. One that is used more than once may turn out to be a variable. -/
def betaAffine (b : Bindings) : Handler Unit Term := do
  let n ← readName b "name"
  let body ← read b "x"
  let tail ← read b "tail"
  match body.count n with
  | 0 => resume body tail
  | 1 => resume (← substitute n (← read b "y") body) tail
  | _ =>
    let arg ← normalize (← read b "y")
    if arg.isVar then resume (← substitute n arg body) tail
    else fromStack (stack (.lambda (.var n) body) (stack arg (← normalizeTail tail)))

/-- The pattern of a spine with the given head, whatever the arguments are. -/
@[simp] def headed (head : Pattern) : Pattern := .stack [head] (any "tail")

/-- The pattern of an abstraction of a variable. -/
@[simp] def lambdaPattern (n : String) (body : Pattern) : Pattern := node .lambda [node .var [any n], body]

/-- The rule of the η-law. -/
def etaRule : Rule (Handler Unit) Term where
  pattern := headed (lambdaPattern "name" (node (.binary .app) [any "x", node .var [any "name2"]]))
  handler := eta

/-- The pattern of a join. -/
@[simp] def joinPattern (x y : Pattern) : Pattern := node (.binary .join) [x, y]

/-- Whether the head of a term is one of the given ones. -/
@[simp] def hasHead (hs : List Head) (t : Term) : Bool := t.head?.any (· ∈ hs)

/-- The rules that normalize a spine. -/
def normalizeStackRules : List (Rule (Handler Unit) Term) :=
  [commit (headed (constant .top)) fun _ => return .const .top,
   commit (headed (constant .bot)) fun _ => return .const .bot,
   commit (headed (joinPattern (constant .top) (any "x"))) fun _ => return .const .top,
   commit (headed (joinPattern (any "x") (constant .top))) fun _ => return .const .top,
   commit (headed (joinPattern (constant .bot) (any "x"))) continueWithX,
   commit (headed (joinPattern (any "x") (constant .bot))) continueWithX,
   etaRule,
   commit (.stack [lambdaPattern "name" (any "x"), node .var [any "name2"]] (any "tail")) betaVar,
   commit (.stack [lambdaPattern "name" (any "x"), any "y"] (any "tail")) betaAffine,
   commit (headed (anyIf "x" (hasHead [.letrec]))) stuckWithX,
   commit (headed (any "x")) stuckWithX]

/-- The rules that normalize the arguments of a spine. -/
def normalizeTailRules : List (Rule (Handler Unit) Term) :=
  [commit (constant .nil) fun _ => return .const .nil,
   commit (node (.binary .stack) [any "x", any "y"]) fun b => do
     let x ← normalize (← read b "x")
     let y ← normalizeTail (← read b "y")
     return stack x y]

/-! ### Bound names -/

/-- The names that the innermost binder has bound so far. -/
def boundHere : Handler Renaming (List (String × String)) := do
  let r ← get
  if r.start ≤ r.scope.length then return r.scope.drop r.start
  else Handling.fault (.position r.start)

/-- Goes below a binder, and back to the binders around in the end. -/
def belowBinder (f : Handler Renaming Term) : Handler Renaming Term := do
  let outer ← get
  set { outer with start := outer.scope.length }
  let t ← f
  modify fun r => { r with scope := r.scope.take outer.scope.length, start := outer.start }
  return t

/-- The rules that rename the variables of a binder. -/
def renamePatternRules : List (Rule (Handler Renaming) Term) :=
  [commit (node .var [any "name"]) fun b => do
     let n ← readName b "name"
     if (← boundHere).any (·.1 == n) then throw (.invalidVariable (.boundTwice n))
     else
       let m ← modifyGet fun r => (r.supply.draw.1, { r with supply := r.supply.draw.2 })
       modify fun r => { r with scope := r.scope ++ [(n, m)] }
       return .var m,
   commit (anyIf "node" Term.isNode) fun b => do mapArgs renamePattern (← read b "node"),
   commit (any "atom") fun b => read b "atom"]

/-- The rules that rename the bound variables of a term. -/
def renameTermRules : List (Rule (Handler Renaming) Term) :=
  [commit (node .var [any "name"]) fun b => do
     let n ← readName b "name"
     return .var (((← get).lookup n).getD n),
   commit (node .lambda [any "x", any "y"]) fun b => belowBinder do
     let x ← renamePattern (← read b "x")
     let y ← renameTerm (← read b "y")
     return .lambda x y,
   commit (node .letrec [any "x", any "y", any "z"]) fun b => belowBinder do
     let x ← renamePattern (← read b "x")
     let y ← renameTerm (← read b "y")
     let z ← renameTerm (← read b "z")
     return .letrec x y z,
   commit (anyIf "node" Term.isNode) fun b => do mapArgs renameTerm (← read b "node"),
   commit (any "atom") fun b => read b "atom"]

/-- The term with canonical bound names. -/
def canonical (t : Term) : Rewrite Term :=
  (renameTerm t).inContext { scope := [], start := 0, supply := .avoiding t.freeNames }

/-- The affine normal form with canonical bound names. -/
def simplify (t : Term) : Rewrite Term := do canonical (← normalize t)

/-! ### Abstraction and compilation -/

/-- Abstraction from a node with two sides, by what the abstractions from the sides are combined to. -/
def bracketSides (combine : String → Term → Term → Option Term → Option Term → Option Term) (b : Bindings) :
    Handler String (Option Term) := do
  let x ← read b "x"
  let y ← read b "y"
  let tx ← bracketHere x
  let ty ← bracketHere y
  return combine (← get) x y tx ty

/-- Abstraction from an application to a variable. -/
def bracketToVar (b : Bindings) : Handler String (Option Term) := do
  let x ← read b "x"
  let v ← read b "v"
  match ← bracketHere x, v.isVarNamed (← get) with
  | none, false => return none
  | none, true => return some x
  | some tx, false => return some (appAll (.const .c) [tx, v])
  | some tx, true => return some (.app (.const .w) tx)

/-- Abstraction from a term through which the variable cannot be drawn. -/
def unsupported (b : Bindings) : Handler String (Option Term) := do
  let t ← read b "term"
  let v ← get
  if t.count v = 0 then return none
  else throw (.notImplemented (.abstraction v t))

/-- The pattern of a node with two sides. -/
@[simp] def binaryPattern (o : Binary) : Pattern := node (.binary o) [any "x", any "y"]

/-- The pattern of a node with one child. -/
@[simp] def unaryPattern (u : Unary) : Pattern := node (.unary u) [any "x"]

/-- The rules that draw a variable out of a term. -/
def bracketRules : List (Rule (Handler String) (Option Term)) :=
  [commit (node .var [any "name"]) fun b => do
     if (← readName b "name") = (← get) then return some (.const .i) else return none,
   commit (node (.binary .app) [any "x", anyIf "v" Term.isVar]) bracketToVar,
   commit (binaryPattern .app) (bracketSides Term.bracketApp),
   commit (binaryPattern .comp) (bracketSides Term.bracketComp),
   commit (binaryPattern .join) (bracketSides fun _ => Term.bracketJoin),
   commit (binaryPattern .rand) (bracketSides fun _ => Term.bracketRand),
   commit (anyIf "term" (hasHead [.unary .quote])) unsupported,
   commit (anyIf "term" (hasHead [.binary .less, .binary .nless, .binary .equal])) unsupported,
   commit (any "term") unsupported]

/-- The abstraction of the variable `v` from a term. -/
def bracket (v : String) (t : Term) : Rewrite (Option Term) := (bracketHere t).inContext v

/-- The code of `LAMBDA v. e`, given the code of `e`. -/
def compileLambda (v : String) (e : Term) : Rewrite Term := do
  match ← bracket v e with
  | some t => return t
  | none => return .app (.const .k) e

/-- The code of `LETREC v d e`, given the codes of `d` and `e`. -/
def compileLetrec (v : String) (d e : Term) : Rewrite Term := do
  match ← bracket v e with
  | none => return e
  | some te =>
    match ← bracket v d with
    | none => return .app te d
    | some td => return .app te (.app (.const .y) td)

/-- The rules that compile a term. -/
def compileRules : List (Rule (Handler Unit) Term) :=
  [commit (anyIf "term" Term.isVar) fun b => read b "term",
   commit (node .lambda [node .var [any "name"], any "x"]) fun b => do
     let v ← readName b "name"
     compileLambda v (← compile (← read b "x")),
   commit (node .letrec [node .var [any "name"], any "x", any "y"]) fun b => do
     let d ← compile (← read b "x")
     let e ← compile (← read b "y")
     compileLetrec (← readName b "name") d e,
   commit (anyIf "term" (hasHead [.lambda, .letrec])) fun b => do throw (.notImplemented (.binder (← read b "term"))),
   commit (any "term") fun b => do mapArgs (fun x => compile x) (← read b "term")]

/-! ### Decompilation -/

/-- Draws a variable. -/
def fresh : Handler NameSupply Term := do return .var (← modifyGet NameSupply.draw)

/-- Decompiles `head` applied to `args`, with the rest of the spine in `tail`. -/
def decompileOnto (head : Term) (args : List Term) (tail : Term) : Handler NameSupply Term := do
  decompileStack (← toStackOnto head args tail)

/-- Decompiles a term, drawing names as needed. -/
def decompileTerm (t : Term) : Handler NameSupply Term := decompileOnto t [] (.const .nil)

/-- `head` applied to the decompiled arguments in `tail`. -/
def withTail (head tail : Term) : Handler NameSupply Term := do fromStack (stack head (← decompileTail tail))

/-- The next `n` operands of a spine, decompiled, with drawn variables for those that are missing, and the rest of the
spine. The drawn variables come second. -/
def operands : Nat → Term → Handler NameSupply (List Term × List Term × Term)
  | 0, rest => return ([], [], rest)
  | n + 1, rest => do
    match rest.layer with
    | .node (.binary .stack) cell =>
      let x ← decompileTerm (← child cell 0)
      let (xs, drawn, rest) ← operands n (← child cell 1)
      return (x :: xs, drawn, rest)
    | _ =>
      let x ← fresh
      let (xs, drawn, rest) ← operands n rest
      return (x :: xs, x :: drawn, rest)

/-- What is built of `n` operands, below binders for those that are missing, applied to the rest of the spine. -/
def ensure (n : Nat) (tail : Term) (build : List Term → Handler NameSupply Term) : Handler NameSupply Term := do
  let (xs, drawn, rest) ← operands n tail
  let body ← build xs
  withTail (drawn.foldr .lambda body) rest

/-- The handler of a combinator that stands for an operator. -/
def operator (o : Binary) (b : Bindings) : Handler NameSupply Term := do
  ensure 2 (← read b "tail") fun xs => do return .binary o (← child xs 0) (← child xs 1)

/-- Whether a term is a comparison of quoted operands. -/
def isComparison (t : Term) : Bool := t = .const .qless ∨ t = .const .qnless ∨ t = .const .qequal

/-- The comparison that a combinator stands for. -/
def comparison (q : Term) : Binary :=
  if q = .const .qnless then .nless else if q = .const .qequal then .equal else .less

/-- Whether a term is a derived combinator. -/
def isDerived : Term → Bool
  | .const o => o ∈ [.ci, .cb, .u, .v, .p, .a]
  | _ => false

/-- The rule for a spine of a constant with the given arguments and rest. -/
def spineRule (o : Const) (args : List Pattern) (tail : Pattern) (f : Bindings → Handler NameSupply Term) :
    Rule (Handler NameSupply) Term :=
  commit (.stack (constant o :: args) tail) f

/-- The end of a spine as a pattern. -/
@[simp] def nil : Pattern := constant .nil

/-- Rules for compositions, holes and lattice constants. -/
def plainRules : List (Rule (Handler NameSupply) Term) :=
  [commit (headed (binaryPattern .comp)) fun b => do
     decompileOnto (.const .b) [← read b "x", ← read b "y"] (← read b "tail"),
   spineRule .hole [] (any "tail") fun b => do withTail (.const .hole) (← read b "tail"),
   spineRule .top [] (any "tail") fun _ => return .const .top,
   spineRule .bot [] (any "tail") fun _ => return .const .bot]

/-- Rules for the combinators whose rules ask for arguments one by one. An argument that `W` or `S` would copy is
shared, unless it is a variable. -/
def combinatorRules : Const → List (Rule (Handler NameSupply) Term)
  | .i =>
    [spineRule .i [] nil fun _ => do
       let x ← fresh
       return .lambda x x,
     spineRule .i [any "x"] (any "tail") fun b => do
       decompileOnto (← read b "x") [] (← read b "tail")]
  | .k =>
    [spineRule .k [] nil fun _ => do
       let x ← fresh
       let y ← fresh
       return .lambda x (.lambda y x),
     spineRule .k [any "x"] nil fun b => do
       let y ← fresh
       let tx ← decompileTerm (← read b "x")
       return .lambda y tx,
     spineRule .k [any "x", any "y"] (any "tail") fun b => do
       decompileOnto (← read b "x") [] (← read b "tail")]
  | .b =>
    [spineRule .b [] nil fun _ => do
       let x ← fresh
       let y ← fresh
       let z ← fresh
       return .lambda x (.lambda y (.lambda z (.app x (.app y z)))),
     spineRule .b [any "x"] nil fun b => do
       let y ← fresh
       let z ← fresh
       let t ← decompileOnto (← read b "x") [.app y z] (.const .nil)
       return .lambda y (.lambda z t),
     spineRule .b [any "x", any "y"] nil fun b => do
       let z ← fresh
       let t ← decompileOnto (← read b "x") [.app (← read b "y") z] (.const .nil)
       return .lambda z t,
     spineRule .b [any "x", any "y", any "z"] (any "tail") fun b => do
       let yz := Term.app (← read b "y") (← read b "z")
       decompileOnto (← read b "x") [yz] (← read b "tail")]
  | .c =>
    [spineRule .c [] nil fun _ => do
       let x ← fresh
       let y ← fresh
       let z ← fresh
       return .lambda x (.lambda y (.lambda z (appAll x [z, y]))),
     spineRule .c [any "x"] nil fun b => do
       let y ← fresh
       let z ← fresh
       let t ← decompileOnto (← read b "x") [z, y] (.const .nil)
       return .lambda y (.lambda z t),
     spineRule .c [any "x", any "y"] nil fun b => do
       let z ← fresh
       let t ← decompileOnto (← read b "x") [z, ← read b "y"] (.const .nil)
       return .lambda z t,
     spineRule .c [any "x", any "y", any "z"] (any "tail") fun b => do
       let args := [← read b "z", ← read b "y"]
       decompileOnto (← read b "x") args (← read b "tail")]
  | .w =>
    [spineRule .w [] nil fun _ => do
       let x ← fresh
       let y ← fresh
       return .lambda x (.lambda y (appAll x [y, y])),
     spineRule .w [any "x"] nil fun b => do
       let y ← fresh
       let tx ← decompileTerm (← read b "x")
       return .lambda y (appAll tx [y, y]),
     spineRule .w [any "x", anyIf "y" Term.isVar] (any "tail") fun b => do
       let y ← read b "y"
       let head ← decompileTerm (appAll (← read b "x") [y, y])
       withTail head (← read b "tail"),
     spineRule .w [any "x", any "y"] (any "tail") fun b => do
       let y ← fresh
       let ty ← decompileTerm (← read b "y")
       let body ← decompileTerm (appAll (← read b "x") [y, y])
       withTail (.letrec y ty body) (← read b "tail")]
  | .s =>
    [spineRule .s [] nil fun _ => do
       let x ← fresh
       let y ← fresh
       let z ← fresh
       return .lambda x (.lambda y (.lambda z (appAll x [z, .app y z]))),
     spineRule .s [any "x"] nil fun b => do
       let y ← fresh
       let z ← fresh
       let tx ← decompileTerm (← read b "x")
       return .lambda y (.lambda z (appAll tx [z, .app y z])),
     spineRule .s [any "x", any "y"] nil fun b => do
       let z ← fresh
       let tx ← decompileTerm (← read b "x")
       let ty ← decompileTerm (← read b "y")
       return .lambda z (appAll tx [z, .app ty z]),
     spineRule .s [any "x", any "y", anyIf "z" Term.isVar] (any "tail") fun b => do
       let z ← read b "z"
       let head ← decompileTerm (appAll (← read b "x") [z, .app (← read b "y") z])
       withTail head (← read b "tail"),
     spineRule .s [any "x", any "y", any "z"] (any "tail") fun b => do
       let z ← fresh
       let tz ← decompileTerm (← read b "z")
       let body ← decompileTerm (appAll (← read b "x") [z, .app (← read b "y") z])
       withTail (.letrec z tz body) (← read b "tail")]
  | .y =>
    [spineRule .y [] (any "tail") fun b => do
       ensure 1 (← read b "tail") fun xs => do
         let x ← child xs 0
         let y ← fresh
         let z ← fresh
         return .letrec y (.lambda z (.app x (.app y z))) y]
  | .j => [spineRule .j [] (any "tail") (operator .join)]
  | .r => [spineRule .r [] (any "tail") (operator .rand)]
  | _ => []

/-- The rule for a spine of a comparison with the given arguments and rest. -/
def comparisonRule (args : List Pattern) (tail : Pattern) (f : Binary → Bindings → Handler NameSupply Term) :
    Rule (Handler NameSupply) Term :=
  commit (.stack (anyIf "q" isComparison :: args) tail) fun b => do f (comparison (← read b "q")) b

/-- Rules for comparisons of quoted operands. -/
def comparisonRules : List (Rule (Handler NameSupply) Term) :=
  [comparisonRule [] nil fun o _ => do
     let x ← fresh
     let y ← fresh
     return .lambda (.quote x) (.lambda (.quote y) (.binary o x y)),
   comparisonRule [unaryPattern .quote] nil fun o b => do
     let y ← fresh
     let tx ← decompileTerm (← read b "x")
     return .lambda (.quote y) (.binary o tx y),
   comparisonRule [any "x"] nil fun o b => do
     let x ← fresh
     let y ← fresh
     let tx ← decompileTerm (← read b "x")
     return .letrec (.quote x) tx (.lambda (.quote y) (.binary o x y)),
   comparisonRule [unaryPattern .quote, node (.unary .quote) [any "y"]] (any "tail") fun o b => do
     let tx ← decompileTerm (← read b "x")
     let ty ← decompileTerm (← read b "y")
     withTail (.binary o tx ty) (← read b "tail"),
   comparisonRule [any "x", any "y"] (any "tail") fun o b => do
     let x ← fresh
     let y ← fresh
     let tx ← decompileTerm (← read b "x")
     let ty ← decompileTerm (← read b "y")
     withTail (.letrec (.quote x) tx (.letrec (.quote y) ty (.binary o x y))) (← read b "tail")]

/-- The handler for a derived combinator, which is replaced by its definition. -/
def expandDerived (b : Bindings) : Handler NameSupply (Option Term) := do
  match (← read b "atom").head? with
  | none => return none
  | some h =>
    match definitionOf h.spelling with
    | .error e => throw e
    | .ok none => return none
    | .ok (some d) => return some (← decompileOnto d [] (← read b "tail"))

/-- Rules for variables, derived combinators and other nodes. -/
def otherRules : List (Rule (Handler NameSupply) Term) :=
  [commit (headed (anyIf "v" Term.isVar)) fun b => do withTail (← read b "v") (← read b "tail"),
   ⟨headed (anyIf "atom" isDerived), expandDerived⟩,
   commit (headed (anyIf "node" Term.isNode)) fun b => do
     let head ← mapArgs decompileTerm (← read b "node")
     withTail head (← read b "tail")]

/-- The combinators with rules of their own, in the order of the rules. -/
def ruled : List Const := [.i, .k, .b, .c, .w, .s, .y, .j, .r]

/-- The rules that decompile a spine. -/
def decompileStackRules : List (Rule (Handler NameSupply) Term) :=
  plainRules ++ (ruled.flatMap combinatorRules ++ (comparisonRules ++ otherRules))

/-- The rules that decompile the arguments of a spine. -/
def decompileTailRules : List (Rule (Handler NameSupply) Term) :=
  [commit nil fun _ => return .const .nil,
   commit (node (.binary .stack) [any "x", any "y"]) fun b => do
     let x ← decompileTerm (← read b "x")
     let y ← decompileTail (← read b "y")
     return stack x y]

/-- The simplified λ-term of combinator code. -/
def decompile (code : Term) : Rewrite Term := do
  simplify (← (decompileTerm code).inContext (.avoiding code.names))

/-! ### Grouping -/

/-- The rule for a node with one child. -/
def unaryRule (u : Unary) (f : Term → Rewrite Term) : Rule (Handler Unit) Term :=
  commit (unaryPattern u) fun b => do return .unary u (← f (← read b "x"))

/-- The rule for a node with two children. -/
def binaryRule (o : Binary) (f g : Term → Rewrite Term) : Rule (Handler Unit) Term :=
  commit (binaryPattern o) fun b => do
    let x ← f (← read b "x")
    let y ← g (← read b "y")
    return .binary o x y

/-- The rule that leaves a term as it is if it passes a test. -/
def keepRule (n : String) (test : Term → Bool) : Rule (Handler Unit) Term :=
  commit (anyIf n test) fun b => read b n

/-- The rule that hands a term on. -/
def handRule (f : Term → Rewrite Term) : Rule (Handler Unit) Term :=
  commit (any "x") fun b => do f (← read b "x")

/-- Rules for the patterns of binders. -/
def groupPatternRules : List (Rule (Handler Unit) Term) :=
  [keepRule "v" Term.isVar, unaryRule .quote groupPattern, unaryRule .cursor groupPattern]

/-- Whether a term belongs to a level below that of atoms. -/
def isOperator : Term → Bool := hasHead [.binary .app, .binary .comp, .binary .join, .lambda, .letrec]

/-- Rules for terms at the given level. What is not of the level is handed on to the next one, and what is too loose for
an atom is bracketed. -/
def groupAtRules : Level → List (Rule (Handler Unit) Term)
  | .atom =>
    [keepRule "atom" Term.isConst,
     keepRule "v" Term.isVar,
     binaryRule .rand (groupAt .inline) (groupAt .inline),
     unaryRule .quote (groupAt .inline),
     binaryRule .less (groupAt .join) (groupAt .join),
     binaryRule .nless (groupAt .join) (groupAt .join),
     binaryRule .equal (groupAt .join) (groupAt .join),
     unaryRule .cursor (groupAt .atom),
     unaryRule .paren (groupAt .inline),
     commit (anyIf "x" isOperator) fun b => do return .paren (← groupAt .inline (← read b "x"))]
  | .comp =>
    [binaryRule .comp (groupAt .comp) (groupAt .comp), unaryRule .cursor (groupAt .comp), handRule (groupAt .atom)]
  | .app =>
    [binaryRule .app (groupAt .app) (groupAt .atom), unaryRule .cursor (groupAt .app), handRule (groupAt .comp)]
  | .join =>
    [binaryRule .join (groupAt .join) (groupAt .join), unaryRule .cursor (groupAt .join), handRule (groupAt .app)]
  | .inline =>
    [commit (node .lambda [any "x", any "y"]) fun b => do
       let x ← groupPattern (← read b "x")
       let y ← groupAt .inline (← read b "y")
       return .lambda x y,
     commit (node .letrec [any "x", any "y", any "z"]) fun b => do
       let x ← groupPattern (← read b "x")
       let y ← groupAt .join (← read b "y")
       let z ← groupAt .inline (← read b "z")
       return .letrec x y z,
     unaryRule .cursor (groupAt .inline),
     handRule (groupAt .join)]

/-- Rules for whole terms. -/
def groupRules : List (Rule (Handler Unit) Term) :=
  [binaryRule .define (groupAt .atom) (groupAt .join),
   unaryRule .assert (groupAt .join),
   unaryRule .cursor group,
   handRule (groupAt .inline)]

/-! ### Answers -/

/-- The rules of a table. -/
def rules : (τ : Table) → List (Rule (Handler τ.Context) τ.Result)
  | .toStack => toStackRules
  | .fromStack => fromStackRules
  | .normalizeStack => normalizeStackRules
  | .normalizeTail => normalizeTailRules
  | .renamePattern => renamePatternRules
  | .renameTerm => renameTermRules
  | .bracket => bracketRules
  | .compile => compileRules
  | .decompileStack => decompileStackRules
  | .decompileTail => decompileTailRules
  | .groupPattern => groupPatternRules
  | .groupAt l => groupAtRules l
  | .group => groupRules

/-- What is done to apply a table: it is made, which it must not refuse, and its rules are tried in order. -/
def applyMade (τ : Table) (t : Term) : Handler τ.Context τ.Result :=
  match RuleTable.ofRules τ.name (rules τ) with
  | .ok table => table.apply t
  | .error e => Handling.fault (.table e)

/-- What is done to rename the variables of a binder, one after the other. -/
def refresh (pairs : List (String × String)) (t : Term) : Handler Unit Term :=
  pairs.foldlM (fun t r => mapArgs (fun x => substitute r.1 (.var r.2) x) t) t

/-- What is done for a substitution. A binder that would capture is renamed first. -/
def replace (n : String) (d t : Term) : Handler Unit Term :=
  match t.layer with
  | .node .var _ => if t.isVarNamed n then return d else mapArgs (fun x => substitute n d x) t
  | .node .lambda args | .node .letrec args =>
    if t.count n = 0 then return t
    else do
      let p ← child args 0
      let t' ← refresh (Term.refreshing p t.payloads d) t
      mapArgs (fun x => substitute n d x) t'
  | _ => mapArgs (fun x => substitute n d x) t

/-- How calls are answered. -/
def answer : (c : Call) → Script Call Call.Answer c.Answer
  | .table τ t context => (applyMade τ t context).run
  | .substitute n d t => ((replace n d t).inContext ()).run

end Combinatory.Tables
