import PathFormula.Source.Location
import PathFormula.Source.Operator
import PathFormula.Source.Ty

/-!
# Source trees

Typed expressions, statements, functions and contracts. Every expression has the number of its
node, its place and its type; an identifier has the number of the declaration it refers to.
-/
namespace PathFormula.Source

structure Node where
  id : Nat
  location : Location
  ty : Ty
  deriving DecidableEq, Repr

inductive Literal where
  | bool (value : Bool)
  | number (value : Rat)
  | string (value : String)
  deriving DecidableEq, Repr

inductive Expr where
  | literal (node : Node) (value : Literal)
  /-- An assignment target is not read. -/
  | identifier (node : Node) (name : String) (declaration : Option Nat) (isTarget : Bool)
  /-- The operator may stand before or after its operand. -/
  | unary (node : Node) (op : UnaryOp) (isBefore : Bool) (operand : Expr)
  | binary (node : Node) (op : BinaryOp) (left right : Expr) (common : Ty)
  | assignment (node : Node) (op : AssignOp) (target value : Expr)
  | tuple (node : Node) (components : List Expr) (isInlineArray : Bool)
  | call (node : Node) (callee : Expr) (arguments : List Expr)
  | index (node : Node) (base position : Expr)
  | member (node : Node) (base : Expr) (name : String)
  deriving Repr

namespace Expr

def node : Expr → Node
  | .literal node .. | .identifier node .. | .unary node .. | .binary node ..
  | .assignment node .. | .tuple node .. | .call node .. | .index node .. | .member node .. => node

/-- The same expression as another node. -/
def withNode (node : Node) : Expr → Expr
  | .literal _ value => .literal node value
  | .identifier _ name declaration isTarget => .identifier node name declaration isTarget
  | .unary _ op isBefore operand => .unary node op isBefore operand
  | .binary _ op left right common => .binary node op left right common
  | .assignment _ op target value => .assignment node op target value
  | .tuple _ components isInlineArray => .tuple node components isInlineArray
  | .call _ callee arguments => .call node callee arguments
  | .index _ base position => .index node base position
  | .member _ base name => .member node base name

def id (e : Expr) : Nat := e.node.id

def location (e : Expr) : Location := e.node.location

def ty (e : Expr) : Ty := e.node.ty

/-- The parts in the order in which they are evaluated. -/
def children : Expr → List Expr
  | .literal .. | .identifier .. => []
  | .unary _ _ _ operand => [operand]
  | .binary _ _ left right _ => [left, right]
  | .assignment _ _ target value => [value, target]
  | .tuple _ components _ => components
  | .call _ callee arguments => arguments ++ [callee]
  | .index _ base position => [base, position]
  | .member _ base _ => [base]

/-- The declaration an identifier refers to. -/
def referenced? : Expr → Option Nat
  | .identifier _ _ declaration _ => declaration
  | _ => none

mutual

/-- The declarations written inside an expression, through assignment or by one step. -/
def writes : Expr → List Nat
  | .literal .. | .identifier .. => []
  | .unary _ op _ operand =>
      (if op = .increment ∨ op = .decrement then operand.referenced?.toList else [])
        ++ operand.writes
  | .binary _ _ left right _ => left.writes ++ right.writes
  | .assignment _ _ target value => target.referenced?.toList ++ value.writes ++ target.writes
  | .tuple _ components _ => writesOfAll components
  | .call _ callee arguments => writesOfAll arguments ++ callee.writes
  | .index _ base position => base.writes ++ position.writes
  | .member _ base _ => base.writes

def writesOfAll : List Expr → List Nat
  | [] => []
  | e :: rest => e.writes ++ writesOfAll rest

end

end Expr

structure Declaration where
  id : Nat
  name : String
  ty : Ty
  location : Location
  /-- The initial value of a state variable. -/
  value : Option Expr := none
  deriving Repr

inductive Stmt where
  | block (location : Location) (body : List Stmt)
  | declare (location : Location) (declarations : List Declaration) (initial : Option Expr)
  | expression (location : Location) (e : Expr)
  | branch (location : Location) (condition : Expr) (yes : Stmt) (no : Option Stmt)
  /-- The condition is tested before the body, or after it. -/
  | whileLoop (location : Location) (condition : Expr) (body : Stmt) (isBodyFirst : Bool)
  | forLoop (location : Location) (start : Option Stmt) (condition step : Option Expr)
      (body : Stmt)
  | ret (location : Location) (value : Option Expr)
  deriving Repr

namespace Stmt

def location : Stmt → Location
  | .block location .. | .declare location .. | .expression location .. | .branch location ..
  | .whileLoop location .. | .forLoop location .. | .ret location .. => location

/-- The same statement at another place. -/
def withLocation (location : Location) : Stmt → Stmt
  | .block _ body => .block location body
  | .declare _ declarations initial => .declare location declarations initial
  | .expression _ e => .expression location e
  | .branch _ condition yes no => .branch location condition yes no
  | .whileLoop _ condition body isBodyFirst => .whileLoop location condition body isBodyFirst
  | .forLoop _ start condition step body => .forLoop location start condition step body
  | .ret _ value => .ret location value

mutual

/-- Every declaration inside a statement, in source order. -/
def locals : Stmt → List Declaration
  | .block _ body => localsOfAll body
  | .declare _ declarations _ => declarations
  | .expression .. | .ret .. => []
  | .branch _ _ yes no => yes.locals ++ localsOfOption no
  | .whileLoop _ _ body _ => body.locals
  | .forLoop _ start _ _ body => localsOfOption start ++ body.locals

def localsOfAll : List Stmt → List Declaration
  | [] => []
  | s :: rest => s.locals ++ localsOfAll rest

def localsOfOption : Option Stmt → List Declaration
  | none => []
  | some s => s.locals

end

/-- The declarations written inside an expression that may be missing. -/
def writesOfExpr : Option Expr → List Nat
  | none => []
  | some e => e.writes

mutual

/-- The declarations written inside a statement. -/
def writes : Stmt → List Nat
  | .block _ body => writesOfAll body
  | .declare _ declarations initial => declarations.map Declaration.id ++ writesOfExpr initial
  | .expression _ e => e.writes
  | .branch _ condition yes no => condition.writes ++ yes.writes ++ writesOfOption no
  | .whileLoop _ condition body _ => condition.writes ++ body.writes
  | .forLoop _ start condition step body =>
      writesOfOption start ++ writesOfExpr condition ++ writesOfExpr step ++ body.writes
  | .ret _ value => writesOfExpr value

def writesOfAll : List Stmt → List Nat
  | [] => []
  | s :: rest => s.writes ++ writesOfAll rest

def writesOfOption : Option Stmt → List Nat
  | none => []
  | some s => s.writes

end

end Stmt

structure Function where
  id : Nat
  name : String
  location : Location
  parameters : List Declaration
  returns : List Declaration
  body : List Stmt
  isConstructor : Bool := false
  modifiers : List String := []
  deriving Repr

def Function.locals (f : Function) : List Declaration := Stmt.localsOfAll f.body

structure Contract where
  id : Nat
  name : String
  location : Location
  stateVariables : List Declaration
  functions : List Function
  deriving Repr

end PathFormula.Source
