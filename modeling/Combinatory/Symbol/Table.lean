import Combinatory.Error

/-!
# Symbol tables

A symbol table is a list of declarations in the order in which they were made. A name is declared at most
once; a second declaration is refused and leaves the table as it was.

## The model

A `Symbol` is a name, an arity and the rule by which its children are read. That the names of a table are distinct
is part of its type, and `SymbolTable.declare` keeps it. `SymbolTable.standard` is the table of the calculus itself;
it is derived from `Head.all`.
-/

namespace Combinatory

/-- How what follows a symbol is read. -/
inductive Reading where
  /-- As many terms as the arity says. -/
  | children
  /-- One name. -/
  | name
  deriving DecidableEq, Repr, Inhabited

/-- A declared symbol. -/
structure Symbol where
  /-- The spelling. -/
  name : String
  /-- The number of children. -/
  arity : Nat
  /-- How the children are read. -/
  reading : Reading
  deriving DecidableEq, Repr, Inhabited

/-- Declared symbols, in declaration order. -/
structure SymbolTable where
  /-- The declarations. -/
  symbols : List Symbol
  /-- No name is declared twice. -/
  distinct : (symbols.map (·.name)).Nodup

namespace SymbolTable

/-- The table without declarations. -/
def empty : SymbolTable where
  symbols := []
  distinct := List.nodup_nil

/-- The declaration of a name. -/
def get? (t : SymbolTable) (name : String) : Option Symbol := t.symbols.find? (·.name == name)

/-- The arity of a name. -/
def arity? (t : SymbolTable) (name : String) : Option Nat := (t.get? name).map (·.arity)

/-- Whether a name is declared. -/
def contains (t : SymbolTable) (name : String) : Bool := (t.get? name).isSome

theorem contains_iff (t : SymbolTable) (name : String) :
    t.contains name = true ↔ name ∈ t.symbols.map (·.name) := by
  simp [contains, get?]

theorem nodup_append_of_not_contains {t : SymbolTable} {s : Symbol} (h : ¬t.contains s.name = true) :
    ((t.symbols ++ [s]).map (·.name)).Nodup := by
  rw [List.map_append, List.nodup_append]
  refine ⟨t.distinct, by simp, ?_⟩
  intro a ha b hb hab
  rw [List.map_singleton, List.mem_singleton] at hb
  exact h ((t.contains_iff s.name).2 (hb ▸ hab ▸ ha))

/-- The table with one more symbol, unless its name is declared already. -/
def declare (t : SymbolTable) (s : Symbol) : Except Error SymbolTable :=
  if h : t.contains s.name then .error (.duplicateSymbol s.name)
  else .ok { symbols := t.symbols ++ [s], distinct := nodup_append_of_not_contains h }

/-- The number of declarations. -/
def size (t : SymbolTable) : Nat := t.symbols.length

/-- Whether nothing is declared. -/
def isEmpty (t : SymbolTable) : Bool := t.symbols.isEmpty

/-- The declared names with their arities. -/
def arities (t : SymbolTable) : List (String × Nat) := t.symbols.map fun s => (s.name, s.arity)

/-- The symbols of the calculus. Only `VAR` is followed by a name. -/
def standard : SymbolTable where
  symbols := Head.all.map fun h =>
    { name := h.spelling, arity := h.arity, reading := if h = .var then .name else .children }
  distinct := by decide

@[simp] theorem symbols_empty : empty.symbols = [] := rfl

end SymbolTable

end Combinatory
