import PathFormula.Draft.Error

/-!
# Diagnostics

A notice says what was left out of a formula or why a function was given up; a diagnostic puts it
at a place of the source.
-/
namespace PathFormula

inductive Notice where
  | variableType (ty : Source.Ty)
  | createdTwice
  | undefinedExpression
  | unknownName (name : String)
  | unknownDeclaration (id : Nat)
  | assignmentTo (ty : Source.Ty)
  | conditionType (ty : Source.Ty)
  | stepOperand
  | stepTarget
  | operator (text : String)
  | comparisonType (ty : Source.Ty)
  | connectiveType (ty : Source.Ty)
  | identifier (name : String)
  | literalType
  | tuple
  | missingCondition
  | call
  | indexAccess
  | memberAccess
  | manyDeclarations
  | manyReturns
  | loop
  | constructor
  | modifiers (names : List String)
  | abandoned (contract function : String) (cause : DraftError)
  | custom (text : String)
  deriving DecidableEq, Repr

def Notice.text : Notice → String
  | .variableType ty =>
      "Gas estimator does not yet support the type of this variable (" ++ ty.text ++ ")"
  | .createdTwice => "Internal error: Expression created twice in SMT solver."
  | .undefinedExpression => "Gas estimator internal error: Expression undefined for SMT solver."
  | .unknownName name => "Unknown variable: " ++ name
  | .unknownDeclaration id => "Unknown variable: declaration " ++ toString id
  | .assignmentTo ty => "Gas estimator does not yet support assignments to " ++ ty.text
  | .conditionType ty => "Cannot assume a condition of type " ++ ty.text
  | .stepOperand => "Gas estimator does not yet implement such increments / decrements."
  | .stepTarget => "Gas estimator does not yet implement such assignments."
  | .operator op => "Gas estimator does not yet implement the operator " ++ op ++ "."
  | .comparisonType ty =>
      "Gas estimator does not yet implement the type " ++ ty.text ++ " for comparisons"
  | .connectiveType ty =>
      "Gas estimator does not yet implement the type " ++ ty.text ++ " for boolean operations"
  | .identifier name => "Gas estimator does not yet support the identifier `" ++ name ++ "`."
  | .literalType => "Gas estimator does not yet support this literal type."
  | .tuple => "Gas estimator does not yet implement tuples and inline arrays."
  | .missingCondition => "Condition missing in call to require/assert."
  | .call => "Gas estimator does not yet implement function calls; the result is unknown."
  | .indexAccess => "Gas estimator does not yet implement index access; its value is unknown."
  | .memberAccess => "Gas estimator does not yet implement member access; its value is unknown."
  | .manyDeclarations => "Gas estimator does not yet implement multi-variable declarations."
  | .manyReturns => "Gas estimator does not yet implement returning multiple values."
  | .loop =>
      "Gas estimator does not unroll loops; variables written in the loop are treated as unknown."
  | .constructor =>
      "Gas estimator does not yet support constructors; the body is encoded as a plain function."
  | .modifiers names =>
      "Gas estimator does not yet support modifiers; ignoring " ++ ", ".intercalate names ++ "."
  | .abandoned contract function cause =>
      "Encoding of " ++ contract ++ "." ++ function ++ " abandoned: " ++ cause.message
  | .custom text => text

inductive Severity where
  | warning
  | error
  deriving DecidableEq, Repr

def Severity.text : Severity → String
  | .warning => "warning"
  | .error => "error"

structure Diagnostic where
  severity : Severity
  location : Source.Location
  notice : Notice
  deriving DecidableEq, Repr

namespace Diagnostic

def text (d : Diagnostic) : String :=
  d.location.text ++ ": " ++ d.severity.text ++ ": " ++ d.notice.text

def isWarning (d : Diagnostic) : Bool := d.severity = .warning

def isError (d : Diagnostic) : Bool := d.severity = .error

end Diagnostic

/-- Diagnostics in the order in which they arose. -/
abbrev Diagnostics := List Diagnostic

namespace Diagnostics

def report (ds : Diagnostics) (severity : Severity) (location : Source.Location)
    (notice : Notice) : Diagnostics :=
  ds ++ [⟨severity, location, notice⟩]

def warnings (ds : Diagnostics) : Diagnostics := ds.filter Diagnostic.isWarning

def hasErrors (ds : Diagnostics) : Bool := ds.any Diagnostic.isError

end Diagnostics

end PathFormula
