/-!
# Types of the source language

Of the types only booleans and fixed-width integers have values that terms can speak of. A width
of zero bits leaves the single integer zero (`IntegerType.min_le_zero`, `zero_le_max`).
-/
namespace PathFormula.Source

structure IntegerType where
  bits : Nat
  signed : Bool
  deriving DecidableEq, Repr

namespace IntegerType

def int256 : IntegerType := ⟨256, true⟩

def uint256 : IntegerType := ⟨256, false⟩

/-- The smallest value: in two's complement, or zero. -/
def min (ty : IntegerType) : Int :=
  if ty.signed ∧ 0 < ty.bits then -Int.pow 2 (ty.bits - 1) else 0

/-- The largest value. -/
def max (ty : IntegerType) : Int :=
  if ty.signed then Int.pow 2 (ty.bits - 1) - 1 else Int.pow 2 ty.bits - 1

def text (ty : IntegerType) : String :=
  (if ty.signed then "int" else "uint") ++ toString ty.bits

theorem two_pow_pos (n : Nat) : 0 < Int.pow 2 n := Int.pow_pos (by decide)

theorem min_le_zero (ty : IntegerType) : ty.min ≤ 0 := by
  have := two_pow_pos (ty.bits - 1)
  unfold min
  split <;> omega

theorem zero_le_max (ty : IntegerType) : 0 ≤ ty.max := by
  have := two_pow_pos (ty.bits - 1)
  have := two_pow_pos ty.bits
  unfold max
  split <;> omega

end IntegerType

/-- What a function name refers to. -/
inductive FunctionKind where
  | require
  | assert
  | internal
  | external
  deriving DecidableEq, Repr

inductive Ty where
  | bool
  | integer (ty : IntegerType)
  /-- The type of a numeric constant. -/
  | rational (value : Rat)
  | address
  | fixedBytes (count : Nat)
  | string
  | array (element : Ty)
  | mapping (key value : Ty)
  | struct (name : String)
  | contract (name : String)
  | function (kind : FunctionKind)
  | tuple (components : List Ty)
  deriving Repr

inductive RatioError where
  | zeroDenominator
  deriving DecidableEq, Repr

def RatioError.message : RatioError → String
  | .zeroDenominator => "denominator == 0"

/-- A quotient in lowest terms, with the sign on the numerator. -/
def ratio (numerator denominator : Int) : Except RatioError Rat :=
  if denominator = 0 then .error .zeroDenominator else .ok (Rat.divInt numerator denominator)

/-- A whole constant prints without its denominator. -/
def rationalText (value : Rat) : String :=
  if value.den = 1 then "int_const " ++ toString value.num
  else "rational_const " ++ toString value.num ++ " / " ++ toString value.den

namespace Ty

mutual

def text : Ty → String
  | .bool => "bool"
  | .integer ty => ty.text
  | .rational value => rationalText value
  | .address => "address"
  | .fixedBytes count => "bytes" ++ toString count
  | .string => "string"
  | .array element => element.text ++ "[]"
  | .mapping key value => "mapping(" ++ key.text ++ " => " ++ value.text ++ ")"
  | .struct name => "struct " ++ name
  | .contract name => "contract " ++ name
  | .function _ => "function"
  | .tuple components => "tuple(" ++ componentsText components ++ ")"

def componentsText : List Ty → String
  | [] => ""
  | [ty] => ty.text
  | ty :: next :: rest => ty.text ++ "," ++ componentsText (next :: rest)

end

/-- Types whose values are copied and not referred to. -/
def isValue : Ty → Bool
  | .bool | .integer _ | .address | .fixedBytes _ | .contract _ => true
  | _ => false

def isBool : Ty → Bool
  | .bool => true
  | _ => false

def integer? : Ty → Option IntegerType
  | .integer ty => some ty
  | _ => none

/-- The type both operands of a binary operation are converted to. -/
def common : Ty → Ty → Ty
  | .integer a, _ => .integer a
  | _, .integer b => .integer b
  | .rational _, .rational _ => .integer .int256
  | left, _ => left

mutual

def same : Ty → Ty → Bool
  | .bool, .bool | .address, .address | .string, .string => true
  | .integer a, .integer b => a = b
  | .rational a, .rational b => a = b
  | .fixedBytes a, .fixedBytes b => a = b
  | .array a, .array b => a.same b
  | .mapping a b, .mapping c d => a.same c && b.same d
  | .struct a, .struct b => a = b
  | .contract a, .contract b => a = b
  | .function a, .function b => a = b
  | .tuple a, .tuple b => sameAll a b
  | _, _ => false

def sameAll : List Ty → List Ty → Bool
  | [], [] => true
  | a :: as, b :: bs => a.same b && sameAll as bs
  | _, _ => false

end

mutual

theorem same_iff (a b : Ty) : a.same b = true ↔ a = b := by
  cases a with
  | array a => cases b <;> simp [same, same_iff a]
  | mapping a c => cases b <;> simp [same, same_iff a, same_iff c]
  | tuple as => cases b <;> simp [same, sameAll_iff as]
  | _ => cases b <;> simp [same]

theorem sameAll_iff (as bs : List Ty) : sameAll as bs = true ↔ as = bs := by
  cases as with
  | nil => cases bs <;> simp [sameAll]
  | cons a as => cases bs <;> simp [sameAll, same_iff a, sameAll_iff as]

end

instance : DecidableEq Ty := fun a b => decidable_of_iff _ (same_iff a b)

end Ty

end PathFormula.Source
