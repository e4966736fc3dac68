import Combinatory.Symbol
import Combinatory.Symbol.Table
import Combinatory.Term.Basic
import Combinatory.Term.Names
import Combinatory.Term.Print
import Combinatory.Term.Build
import Combinatory.Term.Parser
import Combinatory.Error
import Combinatory.Line
import Combinatory.Token
import Combinatory.NameSupply
import Combinatory.Substitution
import Combinatory.Spine
import Combinatory.NormalForm
import Combinatory.Canonical
import Combinatory.Abstraction
import Combinatory.Grouping
import Combinatory.Decompile
import Combinatory.Derived
import Combinatory.Pattern
import Combinatory.Pattern.RuleTable
import Combinatory.Storage
import Combinatory.Decimal.Notation
import Combinatory.Basis.File
import Combinatory.Proofs.Nameless
import Combinatory.Proofs.NameSupply
import Combinatory.Proofs.Substitution
import Combinatory.Proofs.GraphModel
import Combinatory.Proofs.Meaning
import Combinatory.Proofs.HeadReduction
import Combinatory.Proofs.Adequacy
import Combinatory.Proofs.Compilation
import Combinatory.Proofs.NormalForm
import Combinatory.Proofs.Normalization
import Combinatory.Proofs.Canonical
import Combinatory.Proofs.AlphaEquivalence
import Combinatory.Proofs.Simplification
import Combinatory.Proofs.DecompilationRules
import Combinatory.Proofs.Decompilation
import Combinatory.Proofs.CombinatorElimination
import Combinatory.Proofs.Parsing
import Combinatory.Proofs.Equations
import Combinatory.Proofs.BracketAbstraction
import Combinatory.Proofs.CodeSubstitution
import Combinatory.Proofs.Conservativity
import Combinatory.Proofs.Unwinding
import Combinatory.Proofs.AffineTerms
import Combinatory.Proofs.RoundTrip
import Combinatory.Proofs.Recompilation
import Combinatory.Proofs.RuleMachine
import Combinatory.Proofs.DecompilationSteps
import Combinatory.Proofs.NormalizationSteps
import Combinatory.Proofs.Readability
import Combinatory.Proofs.Grouping
import Combinatory.Proofs.CaptureAvoidance
import Combinatory.Proofs.Lines
import Combinatory.Proofs.Exposure
import Combinatory.Proofs.CombinatoryAlgebra
import Combinatory.Proofs.Hygiene
import Combinatory.Proofs.Spine
import Combinatory.Proofs.DerivedCombinators
import Combinatory.Proofs.ReadingErrors
import Combinatory.Proofs.Sharing
import Combinatory.Proofs.FewestBrackets
import Combinatory.Proofs.Groupability
import Combinatory.Proofs.Matching
import Combinatory.Proofs.FreshNames
import Combinatory.Proofs.SubstitutionSteps
import Combinatory.Proofs.FreeVariables
