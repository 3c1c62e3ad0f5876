import Mathlib.Control.Traversable.Instances
import PathFormula.Proofs.Demands
import PathFormula.Proofs.Frozen
import PathFormula.Source.Builder

/-!
# Connectives evaluate both operands

The right operand of `&&` or `||` is encoded after the left one under the same path condition,
whatever the left one is (`connective_encodes_both`): its writes stay and its demands bind. Only
the value of the operation is the one that a left operand decides alone.
-/
namespace PathFormula

open Source

namespace Source.Connective

/-- The value of the left operand that is the value of the whole. -/
def deciding : Connective → Bool
  | .and => false
  | .or => true

theorem value_term (op : Connective) {m : Model} {l r : Term} (h : l.value m = .bool op.deciding) :
    (op.term l r).value m = .bool op.deciding := by
  cases op <;> simp [term, Term.value, Dyadic.value, h, deciding, Value.truth]

end Source.Connective

namespace Draft

variable {d d₁ d' : Draft} {m : Model} {u : Unit}

theorem Emits.store_eq {writes : Nat → Prop} {xs : List Demand} (h : Emits writes xs d d')
    {id : Nat} (hid : ¬ writes id) (m : Model) : d'.store m id = d.store m id := by
  rw [Draft.store_eq, Draft.store_eq, h.unwritten id hid]

theorem expression?_valueOf {e : Expr} {t : Term} (h : Yields (valueOf e) d t d') :
    d'.expression? e.id = some t := by
  obtain ⟨sort, rfl, ⟨hk, rfl⟩ | ⟨-, -, -, -, rfl⟩⟩ := yields_valueOf.1 h
  · simp [Draft.expression?, hk]
  · simp [Draft.expression?]

/-- Where the path is taken, a defined expression has the value that it was defined by. -/
theorem value_define {e : Expr} {t : Term} (h : Yields (define e t) d u d') (hm : d'.HoldsIn m)
    (ho : d.Open m) : ∃ x ∈ d'.expression? e.id, x.value m = t.value m := by
  obtain ⟨-, sort, ⟨hk, rfl⟩ | ⟨-, -, rfl⟩⟩ := yields_define.1 h
  · exact ⟨_, by simp [Draft.expression?, hk], Term.holds_eq.1 ((holdsIn_emitted.1 hm).2 ho)⟩
  · exact ⟨_, by simp [Draft.expression?], Term.holds_eq.1 ((holdsIn_emitted.1 hm).2 ho)⟩

/-- A left operand that decides a connective decides its value. -/
theorem value_connective {e left right : Expr} {op : Connective} {common : Ty}
    (h : Yields (connective e op left right common) d u d') (hm : d'.HoldsIn m) (ho : d.Open m)
    (hc : common.isBool = true) {l : Term} (hl : d'.expression? left.id = some l)
    (hv : l.value m = .bool op.deciding) :
    ∃ t ∈ d'.expression? e.id, t.value m = .bool op.deciding := by
  obtain ⟨hn, -⟩ | ⟨-, x, d₁, y, d₂, hx, hy, h⟩ := yields_connective.1 h
  · rw [hc] at hn
    cases hn
  · have h₁ : Emits (fun _ => False) [] d d₁ := emits_valueOf hx
    have h₂ : Emits (fun _ => False) [] d₁ d₂ := emits_valueOf hy
    have h₃ : Emits (fun _ => False) [] d₂ d' := emits_define h
    have hx' := (h₂.later.trans h₃.later).expression? (expression?_valueOf hx)
    obtain rfl : l = x := Option.some.inj (hl.symm.trans hx')
    obtain ⟨t, ht, hval⟩ := value_define h hm ((h₁.toContinues.trans h₂.toContinues).open_iff.2 ho)
    exact ⟨t, ht, hval.trans (op.value_term hv)⟩

/-- Both operands of a connective are evaluated where the operation is: variables keep their values
from after the left operand only where the right one does not write them, and everything that the
right one demands holds. -/
theorem connective_encodes_both {node : Node} {op : Connective} {left right : Expr} {common : Ty}
    (h : Yields (Expr.binary node (.connective op) left right common).encode d u d')
    (hm : d'.HoldsIn m) (ho : d.Open m) :
    ∃ d₁ d₂ new, Yields left.encode d () d₁ ∧ Yields right.encode d₁ () d₂ ∧
      d'.store m = d₂.store m ∧ (∀ id, id ∉ right.writes → d'.store m id = d₁.store m id) ∧
      d₂.constraints = d₁.constraints ++ new ∧
      List.Forall₂ Demand.StatedBy (d.demands right) (new.filter Constraint.isDemand) ∧
      (∀ k ∈ new, k.guard = d.pathCondition ∧ k.fact.Holds m) ∧
      (common.isBool = true → ∀ l ∈ d'.expression? left.id, l.value m = .bool op.deciding →
        ∃ t ∈ d'.expression? node.id, t.value m = .bool op.deciding) := by
  obtain ⟨d₁, hl, h⟩ := yields_seq.1 h
  obtain ⟨d₂, hr, h⟩ := yields_seq.1 h
  have el := left.emits_encode hl
  have er := right.emits_encode hr
  have eb : Emits (fun _ => False) _ d₂ d' := emits_binary h
  obtain ⟨new, hnew, hguard, hstates⟩ := er.states
  rw [el.later.demands] at hstates
  have hstore : d'.store m = d₂.store m := funext fun _ => eb.store_eq not_false m
  refine ⟨d₁, d₂, new, hl, hr, hstore, fun id hid => ?_, hnew, hstates, fun k hk => ?_,
    fun hc l hl hv => ?_⟩
  · rw [hstore]
    exact er.store_eq hid m
  · have hg : k.guard = d.pathCondition := (hguard k hk).trans el.pathCondition
    have hk : k ∈ d₂.constraints := hnew ▸ List.mem_append_right _ hk
    exact ⟨hg, hm k (eb.later.constraints.subset hk) (hg ▸ ho)⟩
  · -- The operation is named: found through its number, two numerals would be compared.
    exact value_connective (e := .binary node (.connective op) left right common) h hm
      ((el.toContinues.trans er.toContinues).open_iff.2 ho) hc hl hv

def flag : Expr := .identifier ⟨4, {}, .bool⟩ "b" (some 1) false

def divisor : Expr := .identifier ⟨5, {}, .integer ⟨8, false⟩⟩ "y" (some 3) false

/-- The expression `(x /= y) > 1`. -/
def isMore : Expr :=
  .binary ⟨9, {}, .bool⟩ (.comparison .gt)
    (.assignment ⟨7, {}, .integer ⟨8, false⟩⟩ (.arithmetic .div)
      (.identifier ⟨6, {}, .integer ⟨8, false⟩⟩ "x" (some 2) true) divisor)
    (.literal ⟨8, {}, .rational 1⟩ (.number 1)) (.integer ⟨8, false⟩)

def hasty : Expr := .binary ⟨10, {}, .bool⟩ (.connective .and) flag isMore .bool

/-- A guarding draft for a function of the flag and both numbers. -/
def threeParameters : Draft :=
  after (prepare ⟨0, "C", {}, [], []⟩ ⟨0, "f", {}, [⟨1, "b", .bool, {}, none⟩,
      ⟨2, "x", .integer ⟨8, false⟩, {}, none⟩, ⟨3, "y", .integer ⟨8, false⟩, {}, none⟩], [],
      [.expression {} hasty], false, []⟩)
    { settings := { guardsDivision := true } }

def hastyDraft : Draft := after hasty.encode threeParameters

/-- The flag is down, and both numbers are two. -/
def down : Model where
  bool _ := false
  int name := if name = "x-2_0" ∨ name = "y-3_0" ∨ name = "expr_5" then 2 else 1
  byZero _ := 0

theorem facts_hastyDraft : hastyDraft.constraints.map Constraint.fact =
    [.implies (.symbol ⟨"b-1_0", .bool⟩) (.ofBool true),
      .and (.ge (.symbol ⟨"x-2_0", .int⟩) (.ofInt 0)) (.le (.symbol ⟨"x-2_0", .int⟩) (.ofInt 255)),
      .and (.ge (.symbol ⟨"y-3_0", .int⟩) (.ofInt 0)) (.le (.symbol ⟨"y-3_0", .int⟩) (.ofInt 255)),
      .eq (.symbol ⟨"expr_4", .bool⟩) (.symbol ⟨"b-1_0", .bool⟩),
      .eq (.symbol ⟨"expr_5", .int⟩) (.symbol ⟨"y-3_0", .int⟩),
      .ne (.symbol ⟨"expr_5", .int⟩) (.ofInt 0),
      .eq (.symbol ⟨"x-2_1", .int⟩) (.div (.symbol ⟨"x-2_0", .int⟩) (.symbol ⟨"expr_5", .int⟩)),
      .eq (.symbol ⟨"expr_7", .int⟩) (.div (.symbol ⟨"x-2_0", .int⟩) (.symbol ⟨"expr_5", .int⟩)),
      .eq (.symbol ⟨"expr_8", .int⟩) (.ofInt 1),
      .eq (.symbol ⟨"expr_9", .bool⟩) (.gt (.symbol ⟨"expr_7", .int⟩) (.symbol ⟨"expr_8", .int⟩)),
      .eq (.symbol ⟨"expr_10", .bool⟩)
        (.and (.symbol ⟨"expr_4", .bool⟩) (.symbol ⟨"expr_9", .bool⟩))] := by
  decide +kernel

theorem holdsIn_hastyDraft : hastyDraft.HoldsIn down := by
  have hf : ∀ t ∈ hastyDraft.constraints.map Constraint.fact, t.Holds down := by
    rw [facts_hastyDraft]
    simp [Term.Holds, Term.value, Term.implies, Term.ne, Dyadic.value, Value.truth, Value.number,
      Model.value, Model.quotient, down]
  exact fun c hc _ => hf c.fact (List.mem_map_of_mem hc)

theorem open_threeParameters : threeParameters.Open down := Term.holds_of_isTrue rfl

/-- The divisor is not written and keeps its value, and the whole is false as the flag is. -/
theorem hasty_keeps_divisor :
    Yields hasty.encode threeParameters () hastyDraft ∧ hastyDraft.HoldsIn down ∧
      threeParameters.Open down ∧
      ∃ d₁, Yields flag.encode threeParameters () d₁ ∧
        hastyDraft.store down 3 = d₁.store down 3 ∧
          ∃ t ∈ hastyDraft.expression? hasty.id, t.value down = .bool false := by
  have h : Yields hasty.encode threeParameters () hastyDraft := rfl
  have hflag : hastyDraft.expression? flag.id = some (flag.term .bool) := rfl
  obtain ⟨d₁, d₂, new, hl, -, -, hkeep, -, -, -, hvalue⟩ :=
    connective_encodes_both h holdsIn_hastyDraft open_threeParameters
  exact ⟨h, holdsIn_hastyDraft, open_threeParameters, d₁, hl, hkeep 3 (by decide),
    hvalue rfl _ hflag rfl⟩

/-- Operands are not skipped: the right one changes a variable and binds its divisor although the
left one is false. -/
theorem hasty_evaluates_right :
    ∃ d₁, Yields flag.encode threeParameters () d₁ ∧
      Yields hasty.encode threeParameters () hastyDraft ∧ hastyDraft.HoldsIn down ∧
        threeParameters.Open down ∧
        (∃ l ∈ hastyDraft.expression? flag.id, l.value down = .bool false) ∧
          hastyDraft.store down 2 ≠ d₁.store down 2 ∧
            ∃ k ∈ hastyDraft.constraints, (Demand.divisor divisor {}).StatedBy k ∧
              k.guard.Holds down := by
  refine ⟨after flag.encode threeParameters, rfl, rfl, holdsIn_hastyDraft, open_threeParameters,
    ⟨_, rfl, rfl⟩, by decide +kernel, ?_⟩
  refine ⟨⟨.ofBool true, .ne (divisor.term .int) (.ofInt 0), {}⟩, by decide +kernel,
    ⟨⟨_, rfl⟩, rfl⟩, ?_⟩
  exact Term.holds_of_isTrue rfl

end Draft

end PathFormula
