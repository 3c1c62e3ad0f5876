import PathFormula.Draft.Value

/-!
# Operators

The value of an operation is a term over the values of its operands, which have been encoded
before.
-/
namespace PathFormula

open Source

namespace Source

def Comparison.term (op : Comparison) (left right : Term) : Term :=
  match op with
  | .eq => .eq left right
  | .ne => .ne left right
  | .lt => .lt left right
  | .le => .le left right
  | .gt => .gt left right
  | .ge => .ge left right

def Connective.term (op : Connective) (left right : Term) : Term :=
  match op with
  | .and => .and left right
  | .or => .or left right

def Arithmetic.term (op : Arithmetic) (ty : IntegerType) (left right : Term) : Term :=
  match op with
  | .add => .add left right
  | .sub => .sub left right
  | .mul => .mul left right
  | .div => quotient ty left right

end Source

namespace Draft

/-- The value of an arithmetic operation. A guarding draft first states that a divisor is not
zero. -/
def arithmetic (op : Arithmetic) (ty : IntegerType) (left right : Term) (location : Location) :
    Drafting Term := do
  if op = .div && (← get).settings.guardsDivision then
    emit (.ne right (.ofInt 0)) location
  return op.term ty left right

/-- Add one to a variable or take one away. The value of the expression is the new one if the
operator stands before the variable, and the old one if it stands after it. -/
def step (e : Expr) (isUp isBefore : Bool) (operand : Expr) : Drafting Unit := do
  if e.ty.integer?.isNone then throw (.unimplementedType e.ty e.location)
  match operand with
  | .identifier _ _ declaration _ =>
      let d ← get
      match declaration.bind fun id => (d.current? id).map (id, ·) with
      | none => warn e.location .stepTarget
      | some (id, old) =>
          let new : Term := if isUp then .add old (.ofInt 1) else .sub old (.ofInt 1)
          assign id new e.location
          define e (if isBefore then new else old)
  | _ => warn e.location .stepOperand

def unary (e : Expr) : Drafting Unit := do
  match e with
  | .unary _ op isBefore operand =>
      match op with
      | .not =>
          if !e.ty.isBool then throw (.unimplementedType e.ty e.location)
          define e (.not (← valueOf operand))
      | .increment => step e true isBefore operand
      | .decrement => step e false isBefore operand
      | .plus => defineFrom e operand
      | .minus => define e (.neg (← valueOf operand))
      | .bitNot | .delete => warn e.location (.operator op.text)
  | _ => throw (.unsupported .notUnary e.location)

def binaryArithmetic (e : Expr) (op : Arithmetic) (left right : Expr) (common : Ty) :
    Drafting Unit := do
  match common.integer? with
  | none => throw (.unimplementedType common e.location)
  | some ty =>
      let l ← valueOf left
      let r ← valueOf right
      define e (← arithmetic op ty l r e.location)

/-- Booleans are only compared for equality. -/
def comparison (e : Expr) (op : Comparison) (left right : Expr) (common : Ty) :
    Drafting Unit := do
  match common.variableSort with
  | .error _ => warn e.location (.comparisonType common)
  | .ok sort =>
      if sort = .bool && !op.isEquality then
        throw (.unsupported (.boolComparison op) e.location)
      let l ← valueOf left
      let r ← valueOf right
      define e (op.term l r)

def connective (e : Expr) (op : Connective) (left right : Expr) (common : Ty) :
    Drafting Unit := do
  if common.isBool then
    let l ← valueOf left
    let r ← valueOf right
    define e (op.term l r)
  else warn e.location (.connectiveType common)

def binary (e : Expr) : Drafting Unit := do
  match e with
  | .binary _ op left right common =>
      match op with
      | .arithmetic op => binaryArithmetic e op left right common
      | .comparison op => comparison e op left right common
      | .connective op => connective e op left right common
      | .mod | .exp | .bitwise _ => warn e.location (.operator op.text)
  | _ => throw (.unsupported .notBinary e.location)

/-- What an assignment assigns; `none` if its variable is unknown. -/
def assignedValue (e target : Expr) (op : AssignOp) (id : Nat) (value : Term) :
    Drafting (Option Term) := do
  match op with
  | .plain => return some value
  | .arithmetic op =>
      match target.ty.integer? with
      | none => throw (.unimplementedType target.ty e.location)
      | some ty =>
          match (← get).current? id with
          | none =>
              warn e.location (.unknownDeclaration id)
              return none
          | some current => return some (← arithmetic op ty current value e.location)
  | .mod | .bitwise _ => throw (.unsupported (.compoundAssignment op) e.location)

/-- An assignment has the value that it assigns. -/
def assignment (e : Expr) : Drafting Unit := do
  match e with
  | .assignment _ op target value =>
      match target with
      | .identifier _ _ (some id) _ =>
          match target.ty.variableSort with
          | .error _ => warn e.location (.assignmentTo target.ty)
          | .ok _ =>
              match ← assignedValue e target op id (← valueOf value) with
              | none => return
              | some t =>
                  assign id t e.location
                  define e t
      | _ => throw (.unsupported .assignmentTarget e.location)
  | _ => throw (.unsupported .notAssignment e.location)

end Draft

end PathFormula
