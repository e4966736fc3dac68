import Combinatory.Basis
import Combinatory.Toml.Document
import Combinatory.Toml.Key

/-!
# Bases as documents

A basis as a TOML document: one table for each class, with a key for each symbol. A class without weights is left
out when a basis is written, and may be left out when one is read.

## The model

A class may be given by a header, by dotted keys at the top of the document or by one inline table, but only in one
of these ways, and only once except for dotted keys. Nothing else may stand in the document, and no symbol may
have two weights.
-/

namespace Combinatory.Basis

/-- How a document gives the weights of a class. -/
inductive Origin where
  /-- A header with entries below it. -/
  | header
  /-- Dotted keys at the top of the document. -/
  | dotted
  /-- An inline table. -/
  | inline
  deriving DecidableEq, Repr

/-- What has been read of a document. -/
structure Reading where
  /-- The class of the last header. -/
  current : Option ArityClass := none
  /-- The classes that the document has given so far, and how. -/
  origins : List (ArityClass × Origin) := []
  /-- The weights so far. -/
  basis : Basis := {}

namespace Reading

/-- Notes how a class is given. Only dotted keys may come back to a class. -/
def give (r : Reading) (cls : ArityClass) (origin : Origin) : Option Reading :=
  match r.origins.lookup cls with
  | none => some { r with origins := (cls, origin) :: r.origins }
  | some found => if found = .dotted ∧ origin = .dotted then some r else none

/-- Adds a weight; a symbol may have only one. -/
def add (cls : ArityClass) (r : Reading) (n : String) (x : Float) : Option Reading :=
  if (r.basis.weights cls).contains n then none
  else some { r with basis := r.basis.modify cls (Weights.insert n x) }

/-- Reads one statement. -/
def statement? (r : Reading) : Toml.Statement → Option Reading
  | .table [c] => do
    let cls ← ArityClass.ofName? c
    let r ← r.give cls .header
    return { r with current := some cls }
  | .table _ => none
  | .entry path value =>
    match r.current, path, value with
    | some cls, [n], .number x => r.add cls n x
    | none, [c, n], .number x => do
      let cls ← ArityClass.ofName? c
      (← r.give cls .dotted).add cls n x
    | none, [c], .inline entries => do
      let cls ← ArityClass.ofName? c
      entries.foldlM (fun r (path, x) => match path with
        | [n] => r.add cls n x
        | _ => none) (← r.give cls .inline)
    | _, _, _ => none

end Reading

/-- The weights that a document gives, whether they are probabilities or not. -/
def ofDocument? (document : String) : Option Basis := do
  let r ← (← Toml.statements? document).foldlM Reading.statement? {}
  return r.basis

/-- The basis of a document. -/
def ofDocument (document : String) : Except BasisError Basis :=
  match ofDocument? document with
  | none => .error .malformed
  | some b => do
    b.validate
    return b

/-- Numbers in documents: whole numbers with a decimal place. -/
def documentNumber : NumberFormat := { wholeEnd := ".0", nan := "nan" }

/-- The table of a class. -/
def writeClass (cls : ArityClass) (ws : Weights) : String :=
  "[" ++ cls.name ++ "]\n" ++
    String.join (ws.map fun (n, x) => Toml.writeKey n ++ " = " ++ documentNumber.write x ++ "\n")

/-- A basis as a document. -/
def toDocument (b : Basis) : String :=
  let classes := ArityClass.all.filter fun cls => !(b.weights cls).isEmpty
  "\n".intercalate (classes.map fun cls => writeClass cls (b.weights cls))

end Combinatory.Basis
