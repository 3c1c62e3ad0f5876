import PathFormula.Source.Ty
import PathFormula.Term.Basic

/-!
# Truncated quotients

The division of the term language rounds so that the remainder is never negative. A quotient of
the source language is truncated toward zero. For signed operands the division is applied to
absolute values and the sign is put back.
-/
namespace PathFormula

def quotient (ty : Source.IntegerType) (left right : Term) : Term :=
  if ty.signed then
    .ite (.ge left (.ofInt 0))
      (.ite (.ge right (.ofInt 0))
        (.div left right)
        (.neg (.div left (.neg right))))
      (.ite (.ge right (.ofInt 0))
        (.neg (.div (.neg left) right))
        (.div (.neg left) (.neg right)))
  else .div left right

end PathFormula
