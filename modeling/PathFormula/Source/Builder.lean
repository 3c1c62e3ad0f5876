import PathFormula.Source.Tree

/-!
# Building source trees

A builder numbers the nodes it makes from one upwards and gives each the place that starts at its
number. Statements, functions and contracts take a number as well. The types of compound
expressions are worked out from their parts.
-/
namespace PathFormula.Source

/-- A computation that draws fresh numbers; the state is the next one. -/
abbrev Builder := StateM Nat

namespace Builder

def first : Nat := 1

def fresh : Builder (Nat × Location) := do
  let id ← get
  set (id + 1)
  return (id, { start := id, stop := id + 1 })

def node (ty : Ty) : Builder Node := do
  let (id, location) ← fresh
  return ⟨id, location, ty⟩

def place : Builder Location := do
  let (_, location) ← fresh
  return location

def declaration (name : String) (ty : Ty) : Builder Declaration := do
  let (id, location) ← fresh
  return { id := id, name := name, ty := ty, location := location }

def function (name : String) (parameters returns : List Declaration) (body : List Stmt) :
    Builder Function := do
  let (id, location) ← fresh
  return { id := id, name := name, location := location, parameters, returns, body }

def contract (name : String) (stateVariables : List Declaration) (functions : List Function) :
    Builder Contract := do
  let (id, location) ← fresh
  return { id, name, location, stateVariables, functions }

def bool (value : Bool) : Builder Expr := do
  return .literal (← node .bool) (.bool value)

/-- A numeric constant has its own value as its type. -/
def number (value : Rat) : Builder Expr := do
  return .literal (← node (.rational value)) (.number value)

def string (value : String) : Builder Expr := do
  return .literal (← node .string) (.string value)

def reference (declaration : Declaration) (isTarget : Bool) : Builder Expr := do
  return .identifier (← node declaration.ty) declaration.name (some declaration.id) isTarget

def identifier (declaration : Declaration) : Builder Expr := reference declaration false

def target (declaration : Declaration) : Builder Expr := reference declaration true

def unary (op : UnaryOp) (isBefore : Bool) (operand : Expr) : Builder Expr := do
  let ty := if op = .not then .bool else operand.ty
  return .unary (← node ty) op isBefore operand

def binary (op : BinaryOp) (left right : Expr) : Builder Expr := do
  let common := left.ty.common right.ty
  let ty := if op.isPredicate then .bool else common
  return .binary (← node ty) op left right common

def compoundAssign (op : AssignOp) (declaration : Declaration) (value : Expr) :
    Builder Expr := do
  let target ← target declaration
  return .assignment (← node declaration.ty) op target value

def assign (declaration : Declaration) (value : Expr) : Builder Expr :=
  compoundAssign .plain declaration value

/-- A single component in parentheses keeps its type. -/
def tuple (components : List Expr) : Builder Expr := do
  let ty := match components with
    | [single] => single.ty
    | _ => .tuple (components.map Expr.ty)
  return .tuple (← node ty) components false

def call (name : String) (kind : FunctionKind) (arguments : List Expr) (result : Ty) :
    Builder Expr := do
  let callee : Expr := .identifier (← node (.function kind)) name none false
  return .call (← node result) callee arguments

def require (condition : Expr) : Builder Expr :=
  call "require" .require [condition] (.tuple [])

def assert (condition : Expr) : Builder Expr :=
  call "assert" .assert [condition] (.tuple [])

def index (base position : Expr) (ty : Ty) : Builder Expr := do
  return .index (← node ty) base position

def expression (e : Expr) : Builder Stmt := do
  return .expression (← place) e

def declare (declaration : Declaration) (initial : Option Expr) : Builder Stmt := do
  return .declare (← place) [declaration] initial

def block (body : List Stmt) : Builder Stmt := do
  return .block (← place) body

def branch (condition : Expr) (yes : Stmt) (no : Option Stmt) : Builder Stmt := do
  return .branch (← place) condition yes no

def whileLoop (condition : Expr) (body : Stmt) : Builder Stmt := do
  return .whileLoop (← place) condition body false

def forLoop (start : Option Stmt) (condition step : Option Expr) (body : Stmt) :
    Builder Stmt := do
  return .forLoop (← place) start condition step body

def ret (value : Option Expr) : Builder Stmt := do
  return .ret (← place) value

end Builder

end PathFormula.Source
