import Combinatory.Pattern

/-!
# Rule tables

A rule pairs a pattern with what is to be done when it matches. A table tries its rules in order. A rule that
matches may still decline, and then the next ones are tried; the first rule that commits gives the result.

## The model

The handlers run in any monad in which errors of the calculus can be thrown, so they may keep state, draw names or
apply a table again. A table can only be made from well-formed patterns, so matching needs no look at the
linearity of a pattern.
-/

namespace Combinatory

/-- A pattern with its handler. The handler commits to a result or declines. -/
structure Rule (m : Type → Type) (α : Type) where
  /-- What the rule applies to. -/
  pattern : Pattern
  /-- What it does. -/
  handler : Bindings → m (Option α)

/-- A named list of rules with well-formed patterns. -/
structure RuleTable (m : Type → Type) (α : Type) where
  /-- The name, for messages. -/
  name : String
  /-- The rules in the order in which they are tried. -/
  rules : List (Rule m α)
  /-- There is a rule. -/
  nonempty : rules ≠ []
  /-- The patterns are well formed. -/
  valid : ∀ r ∈ rules, r.pattern.check = .ok ()

namespace RuleTable

variable {m : Type → Type} {α : Type}

/-- The first fault among the patterns of some rules. -/
def checkAll : List (Rule m α) → Except PatternFault Unit
  | [] => .ok ()
  | r :: rs => do
    r.pattern.check
    checkAll rs

theorem check_of_checkAll {rules : List (Rule m α)} (h : checkAll rules = .ok ()) :
    ∀ r ∈ rules, r.pattern.check = .ok () := by
  induction rules with
  | nil => intro r hr; cases hr
  | cons s rs ih =>
    rw [checkAll] at h
    cases hs : s.pattern.check with
    | error e => rw [hs] at h; cases h
    | ok u =>
      rw [hs] at h
      intro r hr
      rcases List.mem_cons.1 hr with rfl | hr
      · exact hs
      · exact ih h r hr

/-- The table with the given rules, unless there are none or a pattern is malformed. -/
def ofRules (name : String) (rules : List (Rule m α)) : Except Error (RuleTable m α) :=
  if hne : rules = [] then .error (.malformedPattern name .noRules)
  else
    match h : checkAll rules with
    | .error e => .error (.malformedPattern name e)
    | .ok () => .ok { name := name, rules := rules, nonempty := hne, valid := check_of_checkAll h }

/-- The number of rules. -/
def size (t : RuleTable m α) : Nat := t.rules.length

/-- Tries rules in order on a term. -/
def applyRules [Monad m] (t : Term) : List (Rule m α) → m (Option α)
  | [] => return none
  | r :: rs => do
    match r.pattern.bind t [] with
    | none => applyRules t rs
    | some bound =>
      match ← r.handler bound with
      | some result => return some result
      | none => applyRules t rs

/-- Applies a table to a term. -/
def apply [Monad m] [MonadExceptOf Error m] (table : RuleTable m α) (t : Term) : m α := do
  match ← applyRules t table.rules with
  | some result => return result
  | none => throw (.unmatched table.name t)

end RuleTable

end Combinatory
