import Combinatory.Term.Parser

/-!
# Lines

A corpus is made of lines: a definition gives a name to a term, an assertion states one. As a term, a line
is `DEFINE VAR n x` or `ASSERT x`.
-/

namespace Combinatory

/-- A line of a corpus: the written form of a term, with the name that it defines if it does. -/
structure Line where
  /-- The defined name; an assertion has none. -/
  name : Option String
  /-- The written form of the term. -/
  code : String
  deriving DecidableEq, Repr

namespace Line

/-- The line that states the given code. -/
def assertion (code : String) : Line := { name := none, code := code }

/-- The line that gives a name to the given code. -/
def definition (name code : String) : Line := { name := some name, code := code }

/-- The term of a line. The code is read before the name is checked. -/
def parse (l : Line) : Except Error Term := do
  let body ← Term.parse l.code
  match l.name with
  | none => return .assert body
  | some n =>
    if isNameToken n then return .define (.var n) body
    else throw (.invalidVariable (.definition n))

/-- The line of a term. -/
def ofTerm : Term → Except Error Line
  | .define (.var n) body => .ok (definition n body.print)
  | .assert body => .ok (assertion body.print)
  | t => .error (.unmatched "print_line" t)

end Line

end Combinatory
