import PathFormula.Source.Tree

/-!
# Errors that abandon a draft

An error ends the encoding of one function. Most have the place of the node they belong to.
-/
namespace PathFormula

/-- The stages of a draft. Variables are registered before anything is encoded, and a finalized
draft no longer changes. -/
inductive Phase where
  | created
  | registering
  | encoding
  | finalized
  deriving DecidableEq, Repr

def Phase.text : Phase → String
  | .created => "Created"
  | .registering => "Initializing"
  | .encoding => "Encoding"
  | .finalized => "Finalized"

/-- What needs a draft in a certain phase. -/
inductive Activity where
  | startRegistration
  | startEncoding
  | registerVariable
  | encode
  deriving DecidableEq, Repr

def Activity.text : Activity → String
  | .startRegistration => "start registration"
  | .startEncoding => "start encoding"
  | .registerVariable => "register a variable"
  | .encode => "encode"

/-- Nodes that cannot be encoded at all. -/
inductive Unsupported where
  | notAssignment
  | notUnary
  | notBinary
  | assignmentTarget
  | compoundAssignment (op : Source.AssignOp)
  | boolComparison (op : Source.Comparison)
  deriving DecidableEq, Repr

def Unsupported.text : Unsupported → String
  | .notAssignment => "Not an assignment"
  | .notUnary => "Not a unary operation"
  | .notBinary => "Not a binary operation"
  | .assignmentTarget => "Gas estimator does not yet implement such assignments."
  | .compoundAssignment op =>
      "Gas estimator does not yet implement compound assignment `" ++ op.text ++ "`."
  | .boolComparison op => "Operator " ++ op.text ++ " is not supported for bool operands"

inductive DraftError where
  | duplicateDeclaration (name : String) (id : Nat) (location : Source.Location)
  | unimplementedType (ty : Source.Ty) (location : Source.Location)
  | fractionalLiteral (value : Rat) (location : Source.Location)
  | emptyPath
  | undefinedExpression (id : Nat) (location : Source.Location)
  | finalized
  | wrongPhase (activity : Activity) (phase : Phase)
  | unsupported (reason : Unsupported) (location : Source.Location)
  deriving DecidableEq, Repr

namespace DraftError

def message : DraftError → String
  | .duplicateDeclaration name id _ =>
      "Can't register variable `" ++ name ++ "` (declaration " ++ toString id ++ ") twice"
  | .unimplementedType ty _ => "Type not implemented: " ++ ty.text
  | .fractionalLiteral value _ =>
      "Fractional constant " ++ Source.rationalText value ++ " used as an integer"
  | .emptyPath => "Cannot pop path condition, empty"
  | .undefinedExpression id _ =>
      "Expression " ++ toString id ++ " used before it was encoded"
  | .finalized => "Function encoding is finalized"
  | .wrongPhase activity phase =>
      "Cannot " ++ activity.text ++ " while the encoder is " ++ phase.text
  | .unsupported reason _ => reason.text

/-- The place of the node at fault, if there is one. -/
def location? : DraftError → Option Source.Location
  | .duplicateDeclaration _ _ location | .unimplementedType _ location
  | .fractionalLiteral _ location | .undefinedExpression _ location
  | .unsupported _ location => some location
  | .emptyPath | .finalized | .wrongPhase .. => none

end DraftError

end PathFormula
