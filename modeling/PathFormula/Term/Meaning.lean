import PathFormula.Term.Basic
import Std.Data.String.ToNat

/-!
# Meaning of terms

A model gives every name a value of either sort, and a quotient to every division by zero. The
constants `true`, `false` and the numerals mean the same in all models; integer division leaves
the remainder that is never negative. A term that is used at a sort it does not have counts as
`false` or zero there.
-/
namespace PathFormula

inductive Value where
  | bool (b : Bool)
  | int (n : Int)
  deriving DecidableEq, Repr

namespace Value

def sort : Value → TermSort
  | .bool _ => .bool
  | .int _ => .int

def truth : Value → Bool
  | .bool b => b
  | .int _ => false

def number : Value → Int
  | .bool _ => 0
  | .int n => n

end Value

structure Model where
  bool : String → Bool
  int : String → Int
  /-- The quotient of a number and zero. -/
  byZero : Int → Int

namespace Model

def value (m : Model) (name : String) : TermSort → Value
  | .bool => .bool (m.bool name)
  | .int => .int (m.int name)

def quotient (m : Model) (a b : Int) : Int := if b = 0 then m.byZero a else a / b

theorem value_sort (m : Model) (name : String) (sort : TermSort) :
    (m.value name sort).sort = sort := by
  cases sort <;> rfl

theorem quotient_of_ne_zero (m : Model) (a : Int) {b : Int} (h : b ≠ 0) :
    m.quotient a b = a / b := by
  simp [quotient, h]

end Model

def Dyadic.value (m : Model) (op : Dyadic) (a b : Value) : Value :=
  match op with
  | .and => .bool (a.truth && b.truth)
  | .or => .bool (a.truth || b.truth)
  | .eq => .bool (decide (a = b))
  | .lt => .bool (decide (a.number < b.number))
  | .le => .bool (decide (a.number ≤ b.number))
  | .gt => .bool (decide (a.number > b.number))
  | .ge => .bool (decide (a.number ≥ b.number))
  | .add => .int (a.number + b.number)
  | .sub => .int (a.number - b.number)
  | .mul => .int (a.number * b.number)
  | .div => .int (m.quotient a.number b.number)

theorem Dyadic.value_sort (m : Model) (op : Dyadic) (a b : Value) :
    (op.value m a b).sort = op.resultSort := by
  cases op <;> rfl

namespace Term

/-- The number of a numeral or a negated numeral, in any spelling. -/
def signedNumber? (text : String) : Option Int :=
  match text.toList with
  | '(' :: '-' :: ' ' :: rest =>
      (String.ofList rest.dropLast).toNat?.map fun (size : Nat) => -(size : Int)
  | _ => text.toNat?.map fun (size : Nat) => (size : Int)

/-- The number in a text like `12` or `(- 12)`; no other spelling of it is read. -/
def readInteger? (text : String) : Option Int :=
  (signedNumber? text).filter fun n => integerText n == text

/-- The value of a text that is a constant. -/
def constant? (text : String) : Option Value :=
  if text = "true" then some (.bool true)
  else if text = "false" then some (.bool false)
  else (readInteger? text).map .int

def value (m : Model) : Term → Value
  | .leaf text sort => (constant? text).getD (m.value text sort)
  | .symbol s => m.value s.name s.sort
  | .not a => .bool (!(a.value m).truth)
  | .dyadic op a b => op.value m (a.value m) (b.value m)
  | .ite condition yes no => if (condition.value m).truth then yes.value m else no.value m

/-- The term is true in the model. -/
def Holds (m : Model) (t : Term) : Prop := (t.value m).truth = true

theorem readInteger?_eq_some {text : String} {n : Int} (h : readInteger? text = some n) :
    text = integerText n := by
  simp only [readInteger?, Option.filter_eq_some_iff, beq_iff_eq] at h
  exact h.2.symm

theorem integerText_of_neg {n : Int} (h : n < 0) :
    (integerText n).toList = '(' :: '-' :: ' ' :: ((toString n.natAbs).toList ++ [')']) := by
  simp [integerText, h]

theorem integerText_of_nonneg {n : Int} (h : 0 ≤ n) : integerText n = toString n.natAbs := by
  simp [integerText, Int.not_lt.2 h]

theorem isDigit_of_mem_toString {n : Nat} {c : Char} (h : c ∈ (toString n).toList) :
    c.isDigit = true := by
  have hn : (toString n).toList = Nat.toDigits 10 n := Nat.toList_repr
  exact Nat.isDigit_of_mem_toDigits (by decide) (by decide) (hn ▸ h)

theorem toNat?_toString (n : Nat) : (toString n).toNat? = some n := Nat.toNat?_repr n

theorem signedNumber?_integerText (n : Int) : signedNumber? (integerText n) = some n := by
  unfold signedNumber?
  rcases Int.lt_or_le n 0 with h | h
  · have hn : -(n.natAbs : Int) = n := by omega
    simp only [integerText_of_neg h, List.dropLast_concat, String.ofList_toList, toNat?_toString]
    rw [Option.map_some, hn]
  · split
    · rename_i rest hrest
      have hd : '(' ∈ (toString n.natAbs).toList := by
        rw [← integerText_of_nonneg h, hrest]
        exact List.mem_cons_self
      exact absurd (isDigit_of_mem_toString hd) (by decide)
    · have hn : (n.natAbs : Int) = n := by omega
      rw [integerText_of_nonneg h, toNat?_toString, Option.map_some, hn]

/-- Reading a number undoes writing it. -/
theorem readInteger?_integerText (n : Int) : readInteger? (integerText n) = some n := by
  rw [readInteger?, signedNumber?_integerText, Option.filter_some, if_pos (beq_self_eq_true _)]

theorem integerText_injective {a b : Int} (h : integerText a = integerText b) : a = b := by
  have := readInteger?_integerText a
  rw [h, readInteger?_integerText b] at this
  exact (Option.some.inj this).symm

/-- A text that starts with neither a parenthesis nor a digit is no number. -/
theorem integerText_ne {n : Int} {text : String} {c : Char} {rest : List Char}
    (ht : text.toList = c :: rest) (hc : c ≠ '(') (hd : c.isDigit = false) :
    integerText n ≠ text := by
  intro h
  rw [← h] at ht
  rcases Int.lt_or_le n 0 with hn | hn
  · rw [integerText_of_neg hn] at ht
    exact hc (List.cons.inj ht).1.symm
  · rw [integerText_of_nonneg hn] at ht
    have := isDigit_of_mem_toString (ht ▸ List.mem_cons_self)
    simp [hd] at this

theorem integerText_ne_true (n : Int) : integerText n ≠ "true" :=
  integerText_ne (show "true".toList = 't' :: ['r', 'u', 'e'] by simp) (by decide) (by decide)

theorem integerText_ne_false (n : Int) : integerText n ≠ "false" :=
  integerText_ne (show "false".toList = 'f' :: ['a', 'l', 's', 'e'] by simp) (by decide)
    (by decide)

@[simp] theorem value_ofBool (m : Model) (b : Bool) : (ofBool b).value m = .bool b := by
  cases b <;> simp [ofBool, value, constant?]

@[simp] theorem value_ofInt (m : Model) (n : Int) : (ofInt n).value m = .int n := by
  simp [ofInt, value, constant?, integerText_ne_true, integerText_ne_false,
    readInteger?_integerText]

theorem value_ne (m : Model) (a b : Term) :
    (ne a b).value m = .bool (!decide (a.value m = b.value m)) := rfl

@[simp] theorem value_neg (m : Model) (a : Term) :
    (neg a).value m = .int (-(a.value m).number) := by
  simp [neg, value, Dyadic.value, Value.number]

theorem holds_and {m : Model} {a b : Term} : (and a b).Holds m ↔ a.Holds m ∧ b.Holds m := by
  simp [Holds, value, Dyadic.value, Value.truth]

theorem holds_or {m : Model} {a b : Term} : (or a b).Holds m ↔ a.Holds m ∨ b.Holds m := by
  simp [Holds, value, Dyadic.value, Value.truth]

theorem holds_not {m : Model} {a : Term} : (Term.not a).Holds m ↔ ¬ a.Holds m := by
  simp [Holds, value, Value.truth]

theorem holds_implies {m : Model} {a b : Term} :
    (implies a b).Holds m ↔ (a.Holds m → b.Holds m) := by
  rw [implies, holds_or, holds_not]
  by_cases h : a.Holds m <;> simp [h]

theorem holds_of_isTrue {m : Model} {a : Term} (h : a.isTrue = true) : a.Holds m := by
  cases a <;> simp [isTrue] at h
  subst h
  simp [Holds, value, constant?, Value.truth]

theorem holds_foldl_and {m : Model} {first : Term} {rest : List Term} :
    (rest.foldl and first).Holds m ↔ first.Holds m ∧ ∀ t ∈ rest, t.Holds m := by
  induction rest generalizing first with
  | nil => simp
  | cons t rest ih => simp [ih, holds_and, and_assoc]

/-- A conjunction holds where all its terms hold, also the empty one. -/
theorem holds_conjunction {m : Model} {terms : List Term} :
    (conjunction terms).Holds m ↔ ∀ t ∈ terms, t.Holds m := by
  cases terms with
  | nil => simp [conjunction, joined, Holds, Value.truth]
  | cons first rest => simp [conjunction, joined, holds_foldl_and]

end Term

end PathFormula
