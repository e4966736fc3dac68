import Combinatory.Error

/-!
# Derived combinators

Some constants are abbreviations: each is equal to a term over the primitive combinators. `A` is declared but
stands for nothing yet.
-/

namespace Combinatory

namespace Term

/-- What `CI` stands for. -/
def reversedApplication : Term := app (.const .c) (.const .i)

/-- What `CB` stands for. -/
def reversedComposition : Term := app (.const .c) (.const .b)

/-- What `U` stands for. -/
def closure : Term :=
  comp (.const .y)
    (compAll (app (.const .s) (.const .b))
      [app (.const .j) (appAll (.const .c) [.const .b, .const .i]), app (.const .c) (.const .b)])

/-- What `V` stands for. -/
def reflexiveClosure : Term := comp closure (app (.const .j) (.const .i))

/-- What `P` stands for. -/
def closureOfJoin : Term := comp (app (.const .b) reflexiveClosure) (.const .j)

end Term

namespace Const

/-- The term that a derived combinator stands for; primitive constants have none. -/
def definition : Const → Except Error (Option Term)
  | .ci => .ok (some Term.reversedApplication)
  | .cb => .ok (some Term.reversedComposition)
  | .u => .ok (some Term.closure)
  | .v => .ok (some Term.reflexiveClosure)
  | .p => .ok (some Term.closureOfJoin)
  | .a => .error (.notImplemented (.undefinedConst .a))
  | _ => .ok none

end Const

/-- The definition of the constant with the given spelling; what is not a constant has none. -/
def definitionOf (s : String) : Except Error (Option Term) :=
  match Head.ofSpelling? s with
  | some (.const o) => o.definition
  | _ => .ok none

end Combinatory
