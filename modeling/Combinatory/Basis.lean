import Combinatory.Decimal.Notation
import Combinatory.Symbol.Table

/-!
# Bases

A basis gives weights to the symbols of combinator code, from which code is sampled. The weights of each arity
class are probabilities: they are not negative and sum to one.

## The model

A basis may hold any weights for any names; `Basis.validate` says whether it is one to sample from. The weights of
a class are kept in the order of the names, and are summed in that order.
-/

namespace Combinatory

/-- The symbols with a given number of children. -/
inductive ArityClass where
  /-- No children. -/
  | nullary
  /-- One child. -/
  | unary
  /-- Two children. -/
  | binary
  /-- Three children. -/
  | ternary
  deriving DecidableEq, Repr

namespace ArityClass

/-- The classes in order. -/
def all : List ArityClass := [.nullary, .unary, .binary, .ternary]

/-- The name of a class. -/
def name : ArityClass → String
  | .nullary => "NULLARY"
  | .unary => "UNARY"
  | .binary => "BINARY"
  | .ternary => "TERNARY"

/-- The number of children. -/
def arity : ArityClass → Nat
  | .nullary => 0
  | .unary => 1
  | .binary => 2
  | .ternary => 3

/-- The class with the given name. -/
def ofName? (s : String) : Option ArityClass := all.find? (·.name == s)

end ArityClass

/-- Weights by name, in the order of the names. -/
abbrev Weights : Type := List (String × Float)

namespace Weights

/-- Gives a weight to a name. -/
def insert (n : String) (x : Float) : Weights → Weights
  | [] => [(n, x)]
  | (m, y) :: ws => if n < m then (n, x) :: (m, y) :: ws else if n = m then (n, x) :: ws else (m, y) :: insert n x ws

/-- Takes the weight of a name away. -/
def erase (n : String) (ws : Weights) : Weights := ws.filter (·.1 ≠ n)

/-- Whether a name has a weight. -/
def contains (n : String) (ws : Weights) : Bool := ws.any (·.1 == n)

/-- The weights of the given names, a later one in place of an earlier one. -/
def ofList (ws : List (String × Float)) : Weights := ws.foldl (fun acc (n, x) => insert n x acc) []

/-- The sum of the weights, from the first name on. It starts from the neutral element of addition, which is the
negative zero. -/
def total (ws : Weights) : Float := ws.foldl (fun sum w => sum + w.2) (-0.0)

/-- The weights divided by their sum, if that is positive. -/
def normalize (ws : Weights) : Weights :=
  if ws.total > 0 then ws.map fun (n, x) => (n, x / ws.total) else ws

/-- Equality of names and of weights as numbers. -/
def agree (ws vs : Weights) : Bool :=
  ws.length == vs.length && (ws.zip vs).all fun (w, v) => w.1 == v.1 && w.2 == v.2

end Weights

/-- Weights for the symbols of every class. -/
structure Basis where
  /-- Weights of symbols without children. -/
  nullary : Weights := []
  /-- Weights of symbols with one child. -/
  unary : Weights := []
  /-- Weights of symbols with two children. -/
  binary : Weights := []
  /-- Weights of symbols with three children. -/
  ternary : Weights := []

/-- What is wrong with the weights of a class. -/
inductive BasisFault where
  /-- A name that is not a symbol. -/
  | unknownSymbol (name : String)
  /-- A symbol of another class. -/
  | wrongArity (name : String) (arity : Nat)
  /-- A weight that is negative, infinite or not a number. -/
  | weight (name : String) (x : Float)
  /-- The weights do not sum to one. -/
  | total (sum : Float)

/-- Why a basis cannot be used. -/
inductive BasisError where
  /-- The weights of a class are not probabilities of its symbols. -/
  | invalid (cls : ArityClass) (fault : BasisFault)
  /-- A document does not describe weights. -/
  | malformed
  /-- A file cannot be read or written. -/
  | file

/-- Numbers in messages: whole numbers without a decimal place. -/
def messageNumber : NumberFormat := { wholeEnd := "", nan := "NaN" }

/-- What is wrong, in words. -/
def BasisFault.message : BasisFault → String
  | .unknownSymbol n => s!"unknown symbol `{n}`"
  | .wrongArity n a => s!"`{n}` has arity {a}"
  | .weight n x => s!"weight of `{n}` is {messageNumber.write x}"
  | .total sum => s!"weights sum to {messageNumber.write sum}, expected 1"

/-- The wording of an error; the details of malformed documents and of files are not part of it. -/
def BasisError.message? : BasisError → Option String
  | .invalid cls fault => some s!"Invalid basis: {cls.name}: {fault.message}"
  | .malformed | .file => none

namespace Basis

/-- The basis without weights. -/
def empty : Basis := {}

/-- The basis that is used when none is given. -/
def standard : Basis where
  nullary := Weights.ofList
    [("TOP", 0.05), ("BOT", 0.05), ("I", 0.10), ("K", 0.15), ("B", 0.15), ("C", 0.15), ("W", 0.05),
      ("S", 0.15), ("Y", 0.05), ("J", 0.05), ("R", 0.05)]
  unary := Weights.ofList [("QUOTE", 1.0)]
  binary := Weights.ofList [("APP", 0.6), ("COMP", 0.2), ("JOIN", 0.1), ("RAND", 0.1)]

/-- The weights of a class. -/
def weights (b : Basis) : ArityClass → Weights
  | .nullary => b.nullary
  | .unary => b.unary
  | .binary => b.binary
  | .ternary => b.ternary

/-- Changes the weights of a class. -/
def modify (b : Basis) (cls : ArityClass) (f : Weights → Weights) : Basis :=
  match cls with
  | .nullary => { b with nullary := f b.nullary }
  | .unary => { b with unary := f b.unary }
  | .binary => { b with binary := f b.binary }
  | .ternary => { b with ternary := f b.ternary }

/-- How far the sum of the weights of a class may be from one. -/
def tolerance : Float := 1e-8

/-- What is wrong with one weight of a class, if anything. -/
def checkWeight (cls : ArityClass) (n : String) (x : Float) : Option BasisFault :=
  match SymbolTable.standard.arity? n with
  | none => some (.unknownSymbol n)
  | some a =>
    if a ≠ cls.arity then some (.wrongArity n a)
    else if !x.isFinite || x < 0 then some (.weight n x)
    else none

/-- What is wrong with the weights of a class, if anything: with one of them, or with their sum. -/
def checkClass (cls : ArityClass) (ws : Weights) : Option BasisFault :=
  match ws.findSome? fun (n, x) => checkWeight cls n x with
  | some fault => some fault
  | none => if !ws.isEmpty && (ws.total - 1).abs > tolerance then some (.total ws.total) else none

/-- Refuses weights that are not probabilities. The first class with a fault counts. -/
def validate (b : Basis) : Except BasisError Unit :=
  match ArityClass.all.findSome? fun cls => (checkClass cls (b.weights cls)).map (.invalid cls) with
  | some e => .error e
  | none => .ok ()

/-- Scales the weights of every class to sum to one. -/
def normalize (b : Basis) : Basis where
  nullary := b.nullary.normalize
  unary := b.unary.normalize
  binary := b.binary.normalize
  ternary := b.ternary.normalize

/-- Whether two bases have the same weights. -/
def agree (b c : Basis) : Bool := ArityClass.all.all fun cls => (b.weights cls).agree (c.weights cls)

end Basis

end Combinatory
