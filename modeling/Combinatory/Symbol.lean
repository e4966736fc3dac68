/-!
# Symbols

The heads of the calculus. Every symbol has a fixed number of children; the zero-ary ones are the
constants (the combinators, the lattice constants, the comparison combinators, a hole and the end of a
spine), the others build terms. The set is closed, so a head is a value of an inductive type and its
spelling is a function of it.

## The model

`Const` lists the symbols without children, `Unary` and `Binary` those with one child or two that are treated
alike by most operations. Variables and the two binders stand apart. `Head` is the union of all, with
`Head.spelling` and `Head.arity`. `Head.all` is the order in which the symbols are declared, and
`Head.ofSpelling?` finds a head by its spelling.
-/

namespace Combinatory

/-- The symbols without children. -/
inductive Const where
  /-- The greatest element `TOP`. -/
  | top
  /-- The least element `BOT`. -/
  | bot
  /-- Identity: `I x = x`. -/
  | i
  /-- Constancy: `K x y = x`. -/
  | k
  /-- Composition: `B x y z = x (y z)`. -/
  | b
  /-- Exchange: `C x y z = x z y`. -/
  | c
  /-- Reversed application: `CI x y = y x`. -/
  | ci
  /-- Reversed composition: `CB x y z = y (x z)`. -/
  | cb
  /-- Duplication: `W x y = x y y`. -/
  | w
  /-- Distribution: `S x y z = x z (y z)`. -/
  | s
  /-- The fixed-point combinator `Y`. -/
  | y
  /-- The closure combinator `U`. -/
  | u
  /-- The reflexive closure combinator `V`. -/
  | v
  /-- The pairwise join of closures `P`. -/
  | p
  /-- The combinator `A`, declared without a definition. -/
  | a
  /-- The join combinator: `J x y = JOIN x y`. -/
  | j
  /-- The randomness combinator: `R x y = RAND x y`. -/
  | r
  /-- Quoted `LESS`. -/
  | qless
  /-- Quoted `NLESS`. -/
  | qnless
  /-- Quoted `EQUAL`. -/
  | qequal
  /-- A hole in a term under construction. -/
  | hole
  /-- The end of a spine. -/
  | nil
  deriving DecidableEq, Repr, Inhabited

/-- The symbols with one child, `VAR` apart. -/
inductive Unary where
  /-- Explicit grouping. -/
  | paren
  /-- Quotation. -/
  | quote
  /-- The editing position. -/
  | cursor
  /-- An asserted line. -/
  | assert
  deriving DecidableEq, Repr, Inhabited

/-- The symbols with two children, `LAMBDA` apart. -/
inductive Binary where
  /-- Application. -/
  | app
  /-- Composition. -/
  | comp
  /-- Join. -/
  | join
  /-- Random choice. -/
  | rand
  /-- A defining line. -/
  | define
  /-- A cell of a spine. -/
  | stack
  /-- The order relation. -/
  | less
  /-- The negated order relation. -/
  | nless
  /-- Equality. -/
  | equal
  deriving DecidableEq, Repr, Inhabited

/-- A symbol of any arity. -/
inductive Head where
  /-- A symbol without children. -/
  | const (o : Const)
  /-- A variable; its child is a name. -/
  | var
  /-- A symbol with one child. -/
  | unary (u : Unary)
  /-- A symbol with two children. -/
  | binary (b : Binary)
  /-- Abstraction of a pattern from a body. -/
  | lambda
  /-- Recursive definition of a pattern, scoping over the definition and the body. -/
  | letrec
  deriving DecidableEq, Repr, Inhabited

/-- The spelling of a constant. -/
def Const.spelling : Const → String
  | .top => "TOP"
  | .bot => "BOT"
  | .i => "I"
  | .k => "K"
  | .b => "B"
  | .c => "C"
  | .ci => "CI"
  | .cb => "CB"
  | .w => "W"
  | .s => "S"
  | .y => "Y"
  | .u => "U"
  | .v => "V"
  | .p => "P"
  | .a => "A"
  | .j => "J"
  | .r => "R"
  | .qless => "QLESS"
  | .qnless => "QNLESS"
  | .qequal => "QEQUAL"
  | .hole => "HOLE"
  | .nil => "NIL"

/-- The spelling of a unary symbol. -/
def Unary.spelling : Unary → String
  | .paren => "PAREN"
  | .quote => "QUOTE"
  | .cursor => "CURSOR"
  | .assert => "ASSERT"

/-- The spelling of a binary symbol. -/
def Binary.spelling : Binary → String
  | .app => "APP"
  | .comp => "COMP"
  | .join => "JOIN"
  | .rand => "RAND"
  | .define => "DEFINE"
  | .stack => "STACK"
  | .less => "LESS"
  | .nless => "NLESS"
  | .equal => "EQUAL"

/-- The constants, in declaration order. -/
def Const.all : List Const :=
  [.top, .bot, .i, .k, .b, .c, .ci, .cb, .w, .s, .y, .u, .v, .p, .a, .j, .r, .qless, .qnless, .qequal,
    .hole, .nil]

namespace Head

/-- The spelling of a head. -/
def spelling : Head → String
  | .const o => o.spelling
  | .var => "VAR"
  | .unary u => u.spelling
  | .binary b => b.spelling
  | .lambda => "LAMBDA"
  | .letrec => "LETREC"

/-- The number of children below a head. -/
def arity : Head → Nat
  | .const _ => 0
  | .var | .unary _ => 1
  | .binary _ | .lambda => 2
  | .letrec => 3

/-- Every head, in declaration order. -/
def all : List Head :=
  Const.all.map .const ++
    [.unary .paren, .unary .quote, .unary .cursor, .unary .assert, .var,
      .binary .app, .binary .comp, .binary .join, .binary .rand, .lambda, .binary .define,
      .binary .stack, .letrec, .binary .less, .binary .nless, .binary .equal]

/-- The head with the given spelling. -/
def ofSpelling? (s : String) : Option Head := all.find? (·.spelling == s)

/-- The heads of combinator code: every constant but the end of a spine, and the term formers that
code may use. -/
def combinatorVocabulary : List Head :=
  (Const.all.filter (· ≠ .nil)).map .const ++
    [.binary .app, .binary .comp, .binary .join, .binary .rand, .unary .quote, .var]

/-- The heads of λ-terms. -/
def lambdaVocabulary : List Head :=
  [.const .hole, .const .top, .const .bot, .const .i, .var, .binary .app, .binary .comp,
    .lambda, .letrec, .binary .join, .binary .rand, .unary .quote, .const .qless, .const .qnless,
    .const .qequal, .binary .less, .binary .nless, .binary .equal, .unary .assert, .binary .define,
    .unary .cursor]

end Head

end Combinatory
