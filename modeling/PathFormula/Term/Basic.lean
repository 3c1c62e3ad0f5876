import PathFormula.Term.Operator

/-!
# Terms

A term is a fixed text, a free symbol, or an operator applied to as many terms as it takes. The
sort of a term is read off its outermost operator; `ite` has the sort of its second argument.
`apply` builds an application from any list of arguments and refuses a wrong number of them
(`apply_eq_ok_iff`).
-/
namespace PathFormula

/-- A free symbol, to be declared before it is used. -/
structure Symbol where
  name : String
  sort : TermSort
  deriving DecidableEq, Repr

inductive Term where
  | leaf (text : String) (sort : TermSort)
  | symbol (symbol : Symbol)
  | not (a : Term)
  | dyadic (op : Dyadic) (a b : Term)
  | ite (condition yes no : Term)
  deriving DecidableEq, Repr

namespace Term

/-- A negative number is written as a negated numeral. -/
def integerText (n : Int) : String :=
  if n < 0 then "(- " ++ toString n.natAbs ++ ")" else toString n.natAbs

def ofBool (b : Bool) : Term := .leaf (if b then "true" else "false") .bool

def ofInt (n : Int) : Term := .leaf (integerText n) .int

abbrev and (a b : Term) : Term := .dyadic .and a b
abbrev or (a b : Term) : Term := .dyadic .or a b
abbrev eq (a b : Term) : Term := .dyadic .eq a b
abbrev lt (a b : Term) : Term := .dyadic .lt a b
abbrev le (a b : Term) : Term := .dyadic .le a b
abbrev gt (a b : Term) : Term := .dyadic .gt a b
abbrev ge (a b : Term) : Term := .dyadic .ge a b
abbrev add (a b : Term) : Term := .dyadic .add a b
abbrev sub (a b : Term) : Term := .dyadic .sub a b
abbrev mul (a b : Term) : Term := .dyadic .mul a b
abbrev div (a b : Term) : Term := .dyadic .div a b

def implies (a b : Term) : Term := .or (.not a) b

def ne (a b : Term) : Term := .not (.eq a b)

def neg (a : Term) : Term := .sub (.ofInt 0) a

/-- The first term joined to each later one in turn, nested to the left. -/
def joined (join : Term → Term → Term) : List Term → Option Term
  | [] => none
  | first :: rest => some (rest.foldl join first)

/-- The empty conjunction is `true`. -/
def conjunction (terms : List Term) : Term :=
  (joined and terms).getD (.ofBool true)

def disjunction? (terms : List Term) : Option Term := joined or terms

def sort : Term → TermSort
  | .leaf _ sort => sort
  | .symbol s => s.sort
  | .not _ => .bool
  | .dyadic op _ _ => op.resultSort
  | .ite _ yes _ => yes.sort

def operator? : Term → Option Operator
  | .leaf .. | .symbol _ => none
  | .not _ => some .not
  | .dyadic op _ _ => some (.dyadic op)
  | .ite .. => some .ite

def arguments : Term → List Term
  | .leaf .. | .symbol _ => []
  | .not a => [a]
  | .dyadic _ a b => [a, b]
  | .ite condition yes no => [condition, yes, no]

/-- The operator's symbol, or the text of a leaf or symbol. -/
def head : Term → String
  | .leaf text _ => text
  | .symbol s => s.name
  | .not _ => Operator.not.symbol
  | .dyadic op _ _ => op.symbol
  | .ite .. => Operator.ite.symbol

def isTrue : Term → Bool
  | .leaf text _ => text == "true"
  | _ => false

def isFalse : Term → Bool
  | .leaf text _ => text == "false"
  | _ => false

/-- Why an operator application is refused. -/
inductive ApplyError where
  | unknownOperator (name : String)
  | wrongArity (op : Operator) (actual : Nat)
  deriving DecidableEq, Repr

def ApplyError.message : ApplyError → String
  | .unknownOperator name => "unknown operator `" ++ name ++ "`"
  | .wrongArity op actual =>
      "operator `" ++ op.symbol ++ "` expects " ++ toString op.arity ++ " argument(s), got "
        ++ toString actual

def apply : Operator → List Term → Except ApplyError Term
  | .not, [a] => .ok (.not a)
  | .dyadic op, [a, b] => .ok (.dyadic op a b)
  | .ite, [condition, yes, no] => .ok (.ite condition yes no)
  | op, arguments => .error (.wrongArity op arguments.length)

def applyNamed (name : String) (arguments : List Term) : Except ApplyError Term :=
  match Operator.ofSymbol? name with
  | some op => apply op arguments
  | none => .error (.unknownOperator name)

/-- An application is built exactly from the arguments it then has. -/
theorem apply_eq_ok_iff {op : Operator} {arguments : List Term} {t : Term} :
    apply op arguments = .ok t ↔ t.operator? = some op ∧ t.arguments = arguments := by
  constructor
  · intro h
    unfold apply at h
    split at h <;> cases h <;> simp [operator?, Term.arguments]
  · rintro ⟨ho, rfl⟩
    cases t <;> simp [operator?] at ho <;> subst ho <;> rfl

/-- What holds of terms, and of `or` of any two of which it holds, holds of their disjunction. -/
theorem disjunction?_induction {P : Term → Prop} (hor : ∀ {a b}, P a → P b → P (.or a b))
    {terms : List Term} {t : Term} (h : disjunction? terms = some t) (hP : ∀ x ∈ terms, P x) :
    P t := by
  cases terms with
  | nil => cases h
  | cons first rest =>
    obtain rfl := Option.some.inj h
    obtain ⟨hf, hr⟩ := List.forall_mem_cons.1 hP
    clear hP h
    induction rest generalizing first with
    | nil => exact hf
    | cons x rest ih =>
      obtain ⟨hx, hr⟩ := List.forall_mem_cons.1 hr
      exact ih (.or first x) (hor hf hx) hr

theorem length_arguments {t : Term} {op : Operator} (h : t.operator? = some op) :
    t.arguments.length = op.arity := by
  cases t <;> simp [operator?] at h <;> subst h <;> rfl

end Term

end PathFormula
