import PathFormula.Proofs.Evaluation

/-!
# Quotients

The quotient of two terms is truncated toward zero for signed types, and for unsigned ones exactly
where the dividend is not negative or the division leaves no remainder
(`value_quotient_eq_tdiv_iff`).
-/
namespace PathFormula.Term

open Source

variable {m : Model} {left right : Term} {a b : Int}

/-- The remainder that is never negative and the truncated one part where a negative dividend is
not divided evenly. -/
theorem ediv_eq_tdiv_iff (hb : b ≠ 0) : a / b = a.tdiv b ↔ 0 ≤ a ∨ b ∣ a := by
  have hs : b.sign ≠ 0 := mt Int.sign_eq_zero_iff_zero.1 hb
  rw [Int.tdiv_eq_ediv]
  split
  · rename_i h
    simp [h]
  · rename_i h
    simp only [h, iff_false]
    omega

theorem value_quotient_of_ne_zero (ty : IntegerType) (hl : left.value m = .int a)
    (hr : right.value m = .int b) (hb : b ≠ 0) :
    (quotient ty left right).value m = .int (if ty.signed then a.tdiv b else a / b) := by
  have h := value_quotient ty m left right
  rw [hl, hr, Value.number_int, Value.number_int, IntegerType.quotient, if_pos hb] at h
  exact (Option.some.inj h).symm

theorem value_quotient_eq_tdiv_iff (ty : IntegerType) (hl : left.value m = .int a)
    (hr : right.value m = .int b) (hb : b ≠ 0) :
    (quotient ty left right).value m = .int (a.tdiv b) ↔ ty.signed = true ∨ 0 ≤ a ∨ b ∣ a := by
  rw [value_quotient_of_ne_zero ty hl hr hb]
  cases ty.signed <;> simp [ediv_eq_tdiv_iff hb]

/-- Signed quotients of any integers are truncated toward zero, and unsigned ones of a natural
number and a positive one, whatever the width of the type is. -/
theorem quotient_truncates (ty : IntegerType) (hl : left.value m = .int a)
    (hr : right.value m = .int b) (hb : b ≠ 0) (hs : ty.signed = true ∨ 0 ≤ a ∧ 0 < b) :
    (quotient ty left right).value m = .int (a.tdiv b) := by
  refine (value_quotient_eq_tdiv_iff ty hl hr hb).2 ?_
  obtain hs | ⟨ha, -⟩ := hs
  · exact .inl hs
  · exact .inr (.inl ha)

/-- Half of a variable that is minus seven. -/
theorem half_of_minus_seven :
    (quotient ⟨8, true⟩ (.symbol ⟨"x-1_0", .int⟩) (.ofInt 2)).value
      ⟨fun _ => false, fun _ => -7, fun a => a⟩ = .int (-3) := by
  have h : (-3 : Int) = Int.tdiv (-7) 2 := by decide
  rw [h]
  exact quotient_truncates ⟨8, true⟩ rfl (value_ofInt _ 2) (by decide) (.inl rfl)

end PathFormula.Term
