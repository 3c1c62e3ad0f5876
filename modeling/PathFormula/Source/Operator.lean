/-!
# Operators of the source language

The binary operators are grouped by what an encoder can do with them: the four arithmetic
operations, comparisons and connectives have terms, the others have none.
-/
namespace PathFormula.Source

inductive UnaryOp where
  | not | bitNot | increment | decrement | plus | minus | delete
  deriving DecidableEq, Repr

def UnaryOp.text : UnaryOp → String
  | .not => "!"
  | .bitNot => "~"
  | .increment => "++"
  | .decrement => "--"
  | .plus => "+"
  | .minus => "-"
  | .delete => "delete"

inductive Arithmetic where
  | add | sub | mul | div
  deriving DecidableEq, Repr

def Arithmetic.text : Arithmetic → String
  | .add => "+"
  | .sub => "-"
  | .mul => "*"
  | .div => "/"

inductive Comparison where
  | eq | ne | lt | le | gt | ge
  deriving DecidableEq, Repr

namespace Comparison

def text : Comparison → String
  | .eq => "=="
  | .ne => "!="
  | .lt => "<"
  | .le => "<="
  | .gt => ">"
  | .ge => ">="

/-- Equality and inequality also compare booleans. -/
def isEquality : Comparison → Bool
  | .eq | .ne => true
  | _ => false

end Comparison

inductive Connective where
  | and | or
  deriving DecidableEq, Repr

def Connective.text : Connective → String
  | .and => "&&"
  | .or => "||"

inductive Bitwise where
  | and | or | xor | shl | shr
  deriving DecidableEq, Repr

def Bitwise.text : Bitwise → String
  | .and => "&"
  | .or => "|"
  | .xor => "^"
  | .shl => "<<"
  | .shr => ">>"

inductive BinaryOp where
  | arithmetic (op : Arithmetic)
  | mod
  | exp
  | comparison (op : Comparison)
  | connective (op : Connective)
  | bitwise (op : Bitwise)
  deriving DecidableEq, Repr

namespace BinaryOp

def text : BinaryOp → String
  | .arithmetic op => op.text
  | .mod => "%"
  | .exp => "**"
  | .comparison op => op.text
  | .connective op => op.text
  | .bitwise op => op.text

def isArithmetic : BinaryOp → Bool
  | .arithmetic _ | .mod | .exp => true
  | _ => false

def isComparison : BinaryOp → Bool
  | .comparison _ => true
  | _ => false

def isConnective : BinaryOp → Bool
  | .connective _ => true
  | _ => false

/-- Comparisons and connectives have a boolean result whatever their operands are. -/
def isPredicate (op : BinaryOp) : Bool := op.isComparison || op.isConnective

end BinaryOp

/-- A plain assignment or one that applies a binary operator first. -/
inductive AssignOp where
  | plain
  | arithmetic (op : Arithmetic)
  | mod
  | bitwise (op : Bitwise)
  deriving DecidableEq, Repr

namespace AssignOp

def binary? : AssignOp → Option BinaryOp
  | .plain => none
  | .arithmetic op => some (.arithmetic op)
  | .mod => some .mod
  | .bitwise op => some (.bitwise op)

def text (op : AssignOp) : String :=
  match op.binary? with
  | none => "="
  | some binary => binary.text ++ "="

end AssignOp

end PathFormula.Source
