import Combinatory.Abstraction
import Combinatory.Decompile
import Combinatory.Line

/-!
# Stored code

A corpus is stored as combinator code and worked on as λ-terms: loading reads and decompiles, dumping compiles
and prints. A line keeps its kind and its name.
-/

namespace Combinatory

namespace Term

/-- The λ-term of stored code. -/
def load (source : String) : Except Error Term := do (← Term.parse source).decompile

/-- The stored code of a λ-term. -/
def dump (t : Term) : Except Error String := return (← t.compile).print

end Term

namespace Line

/-- The λ-term of a stored line. -/
def load (l : Line) : Except Error Term := do (← l.parse).decompile

/-- The stored line of a λ-term. -/
def dump (t : Term) : Except Error Line := do ofTerm (← t.compile)

end Line

end Combinatory
