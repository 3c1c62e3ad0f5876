import PathFormula.Term.Meaning

/-!
# Sorting of terms

The terms a solver accepts: connectives of booleans, arithmetic and order of integers, equality and
choice between terms of one sort. Such a term has the sort that is read off it
(`HasSort.sort_eq`), and so has its value in every model (`HasSort.value_sort`).
-/
namespace PathFormula

/-- The sort an operator asks of both arguments; equality asks only that they agree. -/
def Dyadic.argumentSort? : Dyadic → Option TermSort
  | .and | .or => some .bool
  | .eq => none
  | .lt | .le | .gt | .ge | .add | .sub | .mul | .div => some .int

namespace Term

inductive HasSort : Term → TermSort → Prop where
  /-- A constant has its own sort, another text the sort it was given. -/
  | leaf {text : String} {sort : TermSort}
      (constant : ∀ v, constant? text = some v → v.sort = sort) : HasSort (.leaf text sort) sort
  | symbol {s : Symbol} : HasSort (.symbol s) s.sort
  | not {a : Term} (ha : HasSort a .bool) : HasSort (.not a) .bool
  | dyadic {op : Dyadic} {a b : Term} {sort : TermSort} (ho : op.argumentSort? = some sort)
      (ha : HasSort a sort) (hb : HasSort b sort) : HasSort (.dyadic op a b) op.resultSort
  | eq {a b : Term} {sort : TermSort} (ha : HasSort a sort) (hb : HasSort b sort) :
      HasSort (.dyadic .eq a b) .bool
  | ite {condition yes no : Term} {sort : TermSort} (hc : HasSort condition .bool)
      (hy : HasSort yes sort) (hn : HasSort no sort) : HasSort (.ite condition yes no) sort

theorem HasSort.sort_eq {t : Term} {sort : TermSort} (h : HasSort t sort) : t.sort = sort := by
  induction h with
  | leaf | symbol | not | dyadic | eq => rfl
  | ite _ _ _ _ ihy _ => exact ihy

theorem HasSort.value_sort {t : Term} {sort : TermSort} (h : HasSort t sort) (m : Model) :
    (t.value m).sort = sort := by
  induction h with
  | @leaf text sort hc =>
    cases hv : constant? text with
    | none => simp [value, hv, Model.value_sort]
    | some v => simp [value, hv, hc v hv]
  | symbol => exact m.value_sort _ _
  | not => rfl
  | dyadic => exact Dyadic.value_sort m _ _ _
  | eq => rfl
  | ite _ _ _ _ ihy ihn =>
    simp only [value]
    split
    · exact ihy
    · exact ihn

theorem hasSort_ofBool (b : Bool) : HasSort (ofBool b) .bool := by
  refine .leaf fun v hv => ?_
  cases b <;> simp [constant?] at hv <;> subst hv <;> rfl

theorem hasSort_ofInt (n : Int) : HasSort (ofInt n) .int := by
  refine .leaf fun v hv => ?_
  simp [constant?, integerText_ne_true, integerText_ne_false, readInteger?_integerText] at hv
  subst hv
  rfl

end Term

end PathFormula
