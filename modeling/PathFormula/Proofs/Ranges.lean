import Mathlib.Data.FinEnum
import Mathlib.Data.Set.Card
import PathFormula.Proofs.Growth

/-!
# Ranges of types

A number is representable in a type if some word of the type's width stands for it, in two's
complement where the type is signed. The bounds of a type are those of its representable numbers
(`representable_iff`), of which there is one for every word, and the range fact of a variable holds
where its current version is one of them (`range_exact`).
-/
namespace PathFormula

namespace Source.IntegerType

variable {ty : IntegerType} {n : Int}

/-- The number that a word stands for. -/
def number (ty : IntegerType) (word : BitVec ty.bits) : Int :=
  if ty.signed then word.toInt else word.toNat

def Representable (ty : IntegerType) (n : Int) : Prop := ∃ word, ty.number word = n

theorem number_injective (ty : IntegerType) : Function.Injective ty.number := by
  intro a b h
  unfold number at h
  split at h
  · exact BitVec.toInt_inj.1 h
  · exact BitVec.toNat_inj.1 (Int.ofNat.inj h)

/-! ### Bounds -/

/-- The only word without bits stands for zero. -/
theorem number_of_bits_eq_zero (hb : ty.bits = 0) (word : BitVec ty.bits) : ty.number word = 0 := by
  obtain ⟨bits, signed⟩ := ty
  subst hb
  cases signed <;> simp [number, BitVec.of_length_zero]

theorem min_of_bits_eq_zero (hb : ty.bits = 0) : ty.min = 0 := by
  simp [min, hb]

theorem max_of_bits_eq_zero (hb : ty.bits = 0) : ty.max = 0 := by
  simp [max, hb]

theorem min_le_number (ty : IntegerType) (word : BitVec ty.bits) : ty.min ≤ ty.number word := by
  rcases Nat.eq_zero_or_pos ty.bits with hb | hb
  · rw [number_of_bits_eq_zero hb, min_of_bits_eq_zero hb]
  · cases hs : ty.signed with
    | false => simp [min, number, hs]
    | true =>
      have h := word.le_toInt
      simpa [min, number, hs, hb] using h

theorem number_le_max (ty : IntegerType) (word : BitVec ty.bits) : ty.number word ≤ ty.max := by
  cases hs : ty.signed with
  | false =>
    have h : (word.toNat : Int) < 2 ^ ty.bits := by exact_mod_cast word.isLt
    simpa [max, number, hs] using Int.le_sub_one_of_lt h
  | true =>
    have h : word.toInt < 2 ^ (ty.bits - 1) := word.toInt_lt
    simpa [max, number, hs] using Int.le_sub_one_of_lt h

/-- The lowest bits of a number within the bounds stand for it. -/
theorem number_ofInt (hmin : ty.min ≤ n) (hmax : n ≤ ty.max) :
    ty.number (BitVec.ofInt ty.bits n) = n := by
  rcases Nat.eq_zero_or_pos ty.bits with hb | hb
  · rw [min_of_bits_eq_zero hb] at hmin
    rw [max_of_bits_eq_zero hb] at hmax
    rw [number_of_bits_eq_zero hb]
    exact Int.le_antisymm hmin hmax
  · cases hs : ty.signed with
    | false =>
      have h0 : 0 ≤ n := by simpa [min, hs] using hmin
      have hn : n < 2 ^ ty.bits := by simpa [max, hs] using Int.lt_add_one_of_le hmax
      simp [number, hs, Int.emod_eq_of_lt h0 hn, h0]
    | true =>
      have h0 : -2 ^ (ty.bits - 1) ≤ n := by simpa [min, hs, hb] using hmin
      have hn : n < 2 ^ (ty.bits - 1) := by simpa [max, hs] using Int.lt_add_one_of_le hmax
      simp [number, hs, BitVec.toInt_ofInt_eq_self hb h0 hn]

theorem representable_iff : ty.Representable n ↔ ty.min ≤ n ∧ n ≤ ty.max := by
  constructor
  · rintro ⟨word, rfl⟩
    exact ⟨ty.min_le_number word, ty.number_le_max word⟩
  · rintro ⟨hmin, hmax⟩
    exact ⟨_, number_ofInt hmin hmax⟩

theorem representable_zero (ty : IntegerType) : ty.Representable 0 :=
  representable_iff.2 ⟨ty.min_le_zero, ty.zero_le_max⟩

theorem card_word (bits : Nat) : Nat.card (BitVec bits) = 2 ^ bits := by
  rw [Nat.card_eq_fintype_card, ← FinEnum.card_eq_fintypeCard, FinEnum.card_bitVec]

theorem ncard_representable (ty : IntegerType) :
    {n | ty.Representable n}.ncard = 2 ^ ty.bits := by
  rw [← card_word ty.bits, ← Set.ncard_range_of_injective ty.number_injective]
  rfl

end Source.IntegerType

/-- All integer symbols have one value. -/
def Model.uniform (n : Int) : Model := ⟨fun _ => false, fun _ => n, fun a => a⟩

namespace Variable

open Source

variable {v : Variable} {ty : IntegerType} {m : Model}

theorem sort_of_integer (hd : v.domain = .integer ty) : v.sort = .int := by
  rw [sort, hd, Domain.sort]

/-- The range fact holds where the current version is a number that a word of the type stands
for. -/
theorem holds_rangeFact_iff (hd : v.domain = .integer ty) {n : Int}
    (hn : v.current.value m = .int n) : v.rangeFact.Holds m ↔ ty.Representable n := by
  rw [Draft.holds_rangeFact, hd, hn, IntegerType.representable_iff]
  simp [Domain.admits]

theorem value_of_zeroFact (hd : v.domain = .integer ty) (h : v.zeroFact.Holds m) :
    v.current.value m = .int 0 := by
  rw [zeroFact, sort_of_integer hd] at h
  rw [Term.holds_eq.1 h, Term.zero, Term.value_ofInt]

/-- **Range facts are exact.** Whatever the version of a variable is, its range fact holds where
that version is a number that some word of the type's width stands for. There is one such number
for every word, and zero is among them. -/
theorem range_exact (hd : v.domain = .integer ty) :
    (∀ (m : Model) (n : Int), v.current.value m = .int n →
      (v.rangeFact.Holds m ↔ ty.Representable n)) ∧
    {n | ty.Representable n}.ncard = 2 ^ ty.bits ∧
    ty.Representable 0 ∧
    ∀ m : Model, v.zeroFact.Holds m → v.rangeFact.Holds m := by
  refine ⟨fun m n hn => holds_rangeFact_iff hd hn, ty.ncard_representable,
    ty.representable_zero, fun m hz => ?_⟩
  have h0 := value_of_zeroFact hd hz
  exact (holds_rangeFact_iff hd h0).2 ty.representable_zero

/-- The third version of a variable of eight signed bits. -/
def octet : Variable := ⟨1, "x", .integer ⟨8, true⟩, 3⟩

theorem octet_range :
    octet.domain = .integer ⟨8, true⟩ ∧ octet.rangeFact.Holds (.uniform (-128)) ∧
      ¬ octet.rangeFact.Holds (.uniform 128) ∧
      {n | IntegerType.Representable ⟨8, true⟩ n}.ncard = 256 ∧
      octet.zeroFact.Holds (.uniform 0) ∧ octet.rangeFact.Holds (.uniform 0) := by
  have hd : octet.domain = .integer ⟨8, true⟩ := rfl
  obtain ⟨hexact, hcard, -, hzero⟩ := range_exact hd
  have hz : octet.zeroFact.Holds (.uniform 0) := Term.holds_eq.2 (Term.value_ofInt _ 0).symm
  refine ⟨hd, (hexact _ (-128) rfl).2 ⟨0x80, by decide⟩, fun h => ?_, hcard, hz, hzero _ hz⟩
  have hbounds := IntegerType.representable_iff.1 ((hexact _ 128 rfl).1 h)
  exact absurd hbounds (by decide)

end Variable

end PathFormula
