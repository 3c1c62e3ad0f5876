import PathFormula.Proofs.Encoding

/-!
# Symbols in terms

The terms that an encoding puts together mention what their parts mention, and nothing besides
(`Term.Within`).
-/
namespace PathFormula

open Source

namespace Term

/-- Every symbol in the term has the property. -/
def Within (P : Symbol → Prop) (t : Term) : Prop := ∀ s ∈ t.symbols, P s

variable {P : Symbol → Prop} {a b c : Term}

theorem Within.mono {Q : Symbol → Prop} (h : a.Within P) (hPQ : ∀ s, P s → Q s) : a.Within Q :=
  fun s hs => hPQ s (h s hs)

@[simp] theorem within_leaf {text : String} {sort : TermSort} : Within P (.leaf text sort) :=
  fun _ h => absurd h List.not_mem_nil

@[simp] theorem within_symbol {s : Symbol} : Within P (.symbol s) ↔ P s :=
  List.forall_mem_singleton

@[simp] theorem within_not : Within P (.not a) ↔ a.Within P := Iff.rfl

@[simp] theorem within_dyadic {op : Dyadic} : Within P (.dyadic op a b) ↔ a.Within P ∧ b.Within P :=
  List.forall_mem_append

@[simp] theorem within_ite : Within P (.ite c a b) ↔ c.Within P ∧ a.Within P ∧ b.Within P := by
  simp [Within, symbols, or_imp, forall_and]

@[simp] theorem within_implies : Within P (.implies a b) ↔ a.Within P ∧ b.Within P := by
  simp [implies]

@[simp] theorem within_ofBool {b : Bool} : Within P (.ofBool b) := within_leaf

@[simp] theorem within_ofInt {n : Int} : Within P (.ofInt n) := within_leaf

@[simp] theorem within_zero {sort : TermSort} : Within P (.zero sort) := by
  cases sort <;> exact within_leaf

@[simp] theorem within_neg : Within P (.neg a) ↔ a.Within P := by
  simp [neg]

theorem within_quotient (ty : IntegerType) (ha : a.Within P) (hb : b.Within P) :
    (quotient ty a b).Within P := by
  unfold quotient
  split <;> simp [ha, hb]

theorem within_arithmetic (op : Arithmetic) (ty : IntegerType) (ha : a.Within P)
    (hb : b.Within P) : (op.term ty a b).Within P := by
  cases op with
  | add | sub | mul => exact within_dyadic.2 ⟨ha, hb⟩
  | div => exact within_quotient ty ha hb

theorem within_comparison (op : Comparison) (ha : a.Within P) (hb : b.Within P) :
    (op.term a b).Within P := by
  cases op <;> simp [Comparison.term, ne, ha, hb]

theorem within_connective (op : Connective) (ha : a.Within P) (hb : b.Within P) :
    (op.term a b).Within P := by
  cases op <;> simp [Connective.term, ha, hb]

theorem within_stepped (isUp : Bool) (ha : a.Within P) : (Draft.stepped isUp a).Within P := by
  cases isUp <;> simp [Draft.stepped, ha]

theorem within_rangeFact {v : Variable} (h : v.current.Within P) : v.rangeFact.Within P := by
  unfold Variable.rangeFact
  cases v.domain <;> simp [h]

end Term

end PathFormula
