import PathFormula.Source.Tree
import PathFormula.Term.Text

/-!
# Versioned variables

Every write to a source variable gives it a new version, and every version is a free symbol of
its own. Older versions stay valid terms.
-/
namespace PathFormula

/-- The values a variable can have. -/
inductive Domain where
  | bool
  | integer (ty : Source.IntegerType)
  deriving DecidableEq, Repr

namespace Domain

def sort : Domain → TermSort
  | .bool => .bool
  | .integer _ => .int

def ty : Domain → Source.Ty
  | .bool => .bool
  | .integer ty => .integer ty

end Domain

/-- A type whose values no term stands for. -/
structure UnsupportedType where
  ty : Source.Ty
  deriving DecidableEq, Repr

def UnsupportedType.message (e : UnsupportedType) : String :=
  "Variable type is not supported: " ++ e.ty.text

namespace Source.Ty

def domain : Ty → Except UnsupportedType Domain
  | .bool => .ok .bool
  | .integer ty => .ok (.integer ty)
  | ty => .error ⟨ty⟩

def variableSort (ty : Ty) : Except UnsupportedType TermSort := ty.domain.map Domain.sort

end Source.Ty

/-- The zero of a sort. -/
def Term.zero : TermSort → Term
  | .bool => .ofBool false
  | .int => .ofInt 0

structure Variable where
  id : Nat
  name : String
  domain : Domain
  version : Nat := 0
  deriving DecidableEq, Repr

namespace Variable

def ofDeclaration (d : Source.Declaration) : Except UnsupportedType Variable :=
  d.ty.domain.map fun domain => { id := d.id, name := d.name, domain }

def sort (v : Variable) : TermSort := v.domain.sort

/-- The name of a version has the declaration's number in it, so that two declarations of one
name stay apart. -/
def symbol (v : Variable) (version : Nat) : Symbol :=
  ⟨v.name ++ "-" ++ toString v.id ++ "_" ++ toString version, v.sort⟩

def term (v : Variable) (version : Nat) : Term := .symbol (v.symbol version)

def current (v : Variable) : Term := v.term v.version

def advance (v : Variable) : Variable := { v with version := v.version + 1 }

/-- The current version is zero. -/
def zeroFact (v : Variable) : Term := .eq v.current (.zero v.sort)

/-- The current version is some value of the declared type. Every boolean is; the fact about it
only mentions the symbol, and so declares it. -/
def rangeFact (v : Variable) : Term :=
  match v.domain with
  | .integer ty => .and (.ge v.current (.ofInt ty.min)) (.le v.current (.ofInt ty.max))
  | .bool => .implies v.current (.ofBool true)

end Variable

end PathFormula
