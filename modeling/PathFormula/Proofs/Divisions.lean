import PathFormula.Proofs.Traces
import PathFormula.Proofs.Writes

/-!
# Divisions

The divisions that are encoded of a tree, in the order of encoding. They are listed for every
expression after those of its visited parts (`Expr.divisions_eq`). What is proved of an expression
from its visited parts is proved by `Expr.visitedParts_induction`.
-/
namespace PathFormula

open Source

namespace Source.Expr

section Divisions

variable (known : Nat → Bool)

/-- A division that is encoded, where some declarations have variables. -/
def divides (e : Expr) : Bool := e.divisor?.isSome && e.written?.all known

theorem filter_divides_eq_nil {e : Expr} (h : e.divisor? = none) :
    [e].filter (divides known) = [] := by
  simp [divides, h]

mutual

/-- The divisions that are encoded of an expression, in order. -/
def divisions : Expr → List Expr
  | .literal .. | .identifier .. | .index .. | .member .. => []
  | .unary _ _ _ operand => operand.divisions
  | .binary node op left right common =>
      left.divisions ++ right.divisions ++ [binary node op left right common].filter (divides known)
  | .assignment node op target value =>
      value.divisions ++ target.divisions
        ++ [assignment node op target value].filter (divides known)
  | .tuple _ components _ => divisionsOfAll components
  | .call node callee arguments =>
      if (call node callee arguments).isAssertion then divisionsOfFirst arguments
      else divisionsOfAll arguments

def divisionsOfAll : List Expr → List Expr
  | [] => []
  | e :: rest => e.divisions ++ divisionsOfAll rest

def divisionsOfFirst : List Expr → List Expr
  | [] => []
  | e :: _ => e.divisions

end

/-- The division of a node comes after those of its parts. -/
theorem divisions_eq (e : Expr) :
    e.divisions known = divisionsOfAll known e.visitedParts ++ [e].filter (divides known) := by
  cases e with
  | literal | identifier | index | member | unary | tuple =>
    rw [filter_divides_eq_nil known rfl]
    simp [divisions, divisionsOfAll, visitedParts]
  | binary | assignment => simp [divisions, divisionsOfAll, visitedParts]
  | call node callee arguments =>
    rw [filter_divides_eq_nil known rfl, List.append_nil, divisions, visitedParts]
    split
    · cases arguments <;> simp [divisionsOfFirst, divisionsOfAll]
    · rfl

end Divisions

theorem visitedParts_subset_children (e : Expr) : e.visitedParts ⊆ e.children := by
  cases e with
  | literal | identifier | index | member => exact List.nil_subset _
  | unary | binary | assignment | tuple => exact List.Subset.refl _
  | call node callee arguments =>
    rw [visitedParts]
    split
    · exact List.Subset.trans (List.take_subset 1 arguments) (List.subset_append_left _ _)
    · exact List.subset_append_left _ _

theorem sizeOf_lt_of_mem_visitedParts {e x : Expr} (h : x ∈ e.visitedParts) :
    sizeOf x < sizeOf e := by
  cases e with
  | literal | identifier | index | member => simp [visitedParts] at h
  | unary | binary | assignment =>
    simp only [visitedParts, List.mem_cons, List.not_mem_nil, or_false] at h
    rcases h with rfl | rfl <;> simp <;> omega
  | tuple node components isInlineArray =>
    have hx : sizeOf x < sizeOf components := List.sizeOf_lt_of_mem h
    simp
    omega
  | call node callee arguments =>
    have hmem : x ∈ arguments := by
      rw [visitedParts] at h
      split at h
      · exact List.mem_of_mem_take h
      · exact h
    have hx := List.sizeOf_lt_of_mem hmem
    simp
    omega

/-- What holds of an expression whenever it holds of its visited parts holds of all. -/
theorem visitedParts_induction {P : Expr → Prop} (h : ∀ e, (∀ x ∈ e.visitedParts, P x) → P e)
    (e : Expr) : P e :=
  h e fun x _ => visitedParts_induction h x
termination_by sizeOf e
decreasing_by exact sizeOf_lt_of_mem_visitedParts ‹_›

end Source.Expr

namespace Source.Stmt

section

variable (known : Nat → Bool)

def divisionsOfExpr : Option Expr → List Expr
  | none => []
  | some e => e.divisions known

mutual

/-- The divisions in a statement, in the order of encoding. -/
def divisions : Stmt → List Expr
  | .block _ body => divisionsOfAll body
  | .declare _ _ initial => divisionsOfExpr known initial
  | .expression _ e => e.divisions known
  | .branch _ condition yes no =>
      condition.divisions known ++ (yes.divisions ++ divisionsOfOption no)
  | .whileLoop _ condition body isBodyFirst =>
      if isBodyFirst then body.divisions ++ condition.divisions known
      else condition.divisions known ++ body.divisions
  | .forLoop _ start condition step body =>
      divisionsOfOption start
        ++ (divisionsOfExpr known condition ++ (body.divisions ++ divisionsOfExpr known step))
  | .ret _ value => divisionsOfExpr known value

def divisionsOfAll : List Stmt → List Expr
  | [] => []
  | s :: rest => s.divisions ++ divisionsOfAll rest

def divisionsOfOption : Option Stmt → List Expr
  | none => []
  | some s => s.divisions

end

end

end Source.Stmt

end PathFormula
