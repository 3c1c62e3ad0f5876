/-!
# Sorts and operators of the term language

Every operator has a fixed arity: `not` takes one argument, `ite` three, a dyadic operator two.
-/
namespace PathFormula

inductive TermSort where
  | bool
  | int
  deriving DecidableEq, Repr

def TermSort.text : TermSort → String
  | .bool => "Bool"
  | .int => "Int"

/-- The operators of two arguments. `div` is the solver's integer division. -/
inductive Dyadic where
  | and | or | eq | lt | le | gt | ge | add | sub | mul | div
  deriving DecidableEq, Repr

def Dyadic.symbol : Dyadic → String
  | .and => "and"
  | .or => "or"
  | .eq => "="
  | .lt => "<"
  | .le => "<="
  | .gt => ">"
  | .ge => ">="
  | .add => "+"
  | .sub => "-"
  | .mul => "*"
  | .div => "div"

/-- Arithmetic yields an integer, everything else is a predicate. -/
def Dyadic.resultSort : Dyadic → TermSort
  | .add | .sub | .mul | .div => .int
  | _ => .bool

inductive Operator where
  | not
  | dyadic (op : Dyadic)
  | ite
  deriving DecidableEq, Repr

namespace Operator

def symbol : Operator → String
  | .not => "not"
  | .dyadic op => op.symbol
  | .ite => "ite"

def arity : Operator → Nat
  | .not => 1
  | .dyadic _ => 2
  | .ite => 3

def all : List Operator :=
  [.not, .dyadic .and, .dyadic .or, .dyadic .eq, .dyadic .lt, .dyadic .le, .dyadic .gt,
    .dyadic .ge, .dyadic .add, .dyadic .sub, .dyadic .mul, .dyadic .div, .ite]

/-- The operator of a symbol. A slash also stands for `div`. -/
def ofSymbol? (symbol : String) : Option Operator :=
  if symbol = "/" then some (.dyadic .div) else all.find? fun op => op.symbol == symbol

end Operator

end PathFormula
