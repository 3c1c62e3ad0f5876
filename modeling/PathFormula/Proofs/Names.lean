import PathFormula.Draft.Basic
import PathFormula.Term.Meaning

/-!
# Names of symbols

A version of a variable and the value of an expression each have a name of their own: the numbers
in a name can be read back from its end, and no constant is spelled like a symbol.
-/
namespace PathFormula

namespace Names

theorem toString_injective {a b : Nat} (h : toString a = toString b) : a = b := by
  have ha := Term.toNat?_toString a
  rw [h, Term.toNat?_toString b] at ha
  exact (Option.some.inj ha).symm

theorem not_mem_toString {n : Nat} {c : Char} (hc : c.isDigit = false) :
    c ∉ (toString n).toList := by
  intro h
  simp [Term.isDigit_of_mem_toString h] at hc

/-- What follows the last separator, and what precedes it, can be read off a list. -/
theorem split_unique {c : Char} {a b xs ys : List Char} (hx : c ∉ xs) (hy : c ∉ ys)
    (h : a ++ c :: xs = b ++ c :: ys) : a = b ∧ xs = ys := by
  rcases List.append_eq_append_iff.1 h with ⟨l, hb, hl⟩ | ⟨l, ha, hl⟩
  · cases l with
    | nil => simp_all
    | cons d l =>
      have hm : c ∈ xs := by
        rw [(List.cons.inj hl).2]
        simp
      exact absurd hm hx
  · cases l with
    | nil => simp_all
    | cons d l =>
      have hm : c ∈ ys := by
        rw [(List.cons.inj hl).2]
        simp
      exact absurd hm hy

end Names

namespace Variable

theorem toList_name (v : Variable) (k : Nat) :
    (v.symbol k).name.toList =
      (v.name.toList ++ '-' :: (toString v.id).toList) ++ '_' :: (toString k).toList := by
  simp [symbol]

/-- A name tells the declaration and the version it stands for. -/
theorem name_injective {v w : Variable} {k l : Nat} (h : (v.symbol k).name = (w.symbol l).name) :
    v.name = w.name ∧ v.id = w.id ∧ k = l := by
  have hl := congrArg String.toList h
  rw [toList_name, toList_name] at hl
  obtain ⟨hl, hk⟩ := Names.split_unique (Names.not_mem_toString (by decide))
    (Names.not_mem_toString (by decide)) hl
  obtain ⟨hn, hi⟩ := Names.split_unique (Names.not_mem_toString (by decide))
    (Names.not_mem_toString (by decide)) hl
  exact ⟨String.toList_inj.1 hn, Names.toString_injective (String.toList_inj.1 hi),
    Names.toString_injective (String.toList_inj.1 hk)⟩

end Variable

namespace Draft

/-- The name for the value of an expression. -/
def expressionName (id : Nat) : String := (expressionSymbol id .bool).name

theorem name_expressionSymbol (id : Nat) (sort : TermSort) :
    (expressionSymbol id sort).name = expressionName id := rfl

theorem toList_expressionName (id : Nat) :
    (expressionName id).toList = ['e', 'x', 'p', 'r'] ++ '_' :: (toString id).toList := by
  simp [expressionName, expressionSymbol]

theorem expressionName_injective {a b : Nat} (h : expressionName a = expressionName b) :
    a = b := by
  have hl := congrArg String.toList h
  rw [toList_expressionName, toList_expressionName] at hl
  exact Names.toString_injective (String.toList_inj.1 (List.cons.inj
    (List.append_cancel_left hl)).2)

theorem name_ne_expressionName (v : Variable) (k id : Nat) :
    (v.symbol k).name ≠ expressionName id := by
  intro h
  have hl := congrArg String.toList h
  rw [Variable.toList_name, toList_expressionName] at hl
  obtain ⟨hl, -⟩ := Names.split_unique (Names.not_mem_toString (by decide))
    (Names.not_mem_toString (by decide)) hl
  have hm : '-' ∈ ['e', 'x', 'p', 'r'] := by
    rw [← hl]
    simp
  exact absurd hm (by decide)

end Draft

namespace Term

/-- A constant has no underscore in it. -/
theorem constant?_eq_none {text : String} (h : '_' ∈ text.toList) : constant? text = none := by
  have ht : text ≠ "true" := by
    rintro rfl
    revert h
    decide
  have hf : text ≠ "false" := by
    rintro rfl
    revert h
    decide
  have hn : readInteger? text = none := by
    cases hr : readInteger? text with
    | none => rfl
    | some n =>
      rw [readInteger?_eq_some hr] at h
      rcases Int.lt_or_le n 0 with hn | hn
      · rw [integerText_of_neg hn] at h
        have := Names.not_mem_toString (n := n.natAbs) (c := '_') (by decide)
        simp_all
      · rw [integerText_of_nonneg hn] at h
        exact absurd h (Names.not_mem_toString (by decide))
  simp [constant?, ht, hf, hn]

theorem constant?_name (v : Variable) (k : Nat) : constant? (v.symbol k).name = none :=
  constant?_eq_none (by simp [Variable.toList_name])

theorem constant?_expressionName (id : Nat) : constant? (Draft.expressionName id) = none :=
  constant?_eq_none (by simp [Draft.toList_expressionName])

end Term

end PathFormula
