import PathFormula.Proofs.Fragment
import PathFormula.Proofs.Joins

/-!
# Encoded expressions have their values

In every model of what encoding an expression of the fragment adds, the symbol of the expression has
the value that evaluation gives it, and the current versions of the variables are the store after
the evaluation (`Typed.evaluates`).
-/
namespace PathFormula

open Source

@[simp] theorem Value.number_int (n : Int) : (Value.int n).number = n := rfl

@[simp] theorem Value.truth_bool (b : Bool) : (Value.bool b).truth = b := rfl

namespace Term

variable {m : Model} {a b : Term}

theorem holds_ge_zero : (ge a (.ofInt 0)).Holds m ↔ 0 ≤ (a.value m).number := by
  simp [Holds, value, Dyadic.value, Value.truth, Value.number]

theorem value_div (m : Model) (a b : Term) :
    (div a b).value m = .int (m.quotient (a.value m).number (b.value m).number) := rfl

theorem value_and (m : Model) (a b : Term) :
    (and a b).value m = .bool ((a.value m).truth && (b.value m).truth) := rfl

theorem value_or (m : Model) (a b : Term) :
    (or a b).value m = .bool ((a.value m).truth || (b.value m).truth) := rfl

/-- Where the dividend is not negative, the division of the term language truncates. -/
theorem quotient_of_nonneg {m : Model} {x y : Int} (hx : 0 ≤ x) :
    m.quotient x y = if y = 0 then m.byZero x else x.tdiv y := by
  rw [Model.quotient, Int.tdiv_eq_ediv_of_nonneg hx]

/-- The division of the term language, with the signs put back, truncates toward zero. -/
theorem value_quotient (ty : IntegerType) (m : Model) (a b : Term) :
    (ty.quotient (fun n => some (m.byZero n)) (a.value m).number (b.value m).number).map Value.int =
      some ((quotient ty a b).value m) := by
  generalize hx : (a.value m).number = x
  generalize hy : (b.value m).number = y
  unfold IntegerType.quotient quotient
  cases ty.signed with
  | false =>
    by_cases h : y = 0 <;> simp [value_div, Model.quotient, hx, hy, h]
  | true =>
    simp only [if_true, true_and]
    by_cases ha : 0 ≤ x <;> by_cases hb : 0 ≤ y
    · rw [value_ite_of_holds (holds_ge_zero.2 (hx ▸ ha)),
        value_ite_of_holds (holds_ge_zero.2 (hy ▸ hb)), value_div, hx, hy, quotient_of_nonneg ha]
      by_cases h : y = 0 <;> simp [h, Int.not_lt.2 ha]
    · rw [value_ite_of_holds (holds_ge_zero.2 (hx ▸ ha)),
        value_ite_of_not_holds (mt holds_ge_zero.1 (hy ▸ hb))]
      simp only [value_neg, value_div, hx, hy, Value.number_int]
      have h : y ≠ 0 := by omega
      rw [quotient_of_nonneg ha, Int.tdiv_neg]
      simp [h]
    · rw [value_ite_of_not_holds (mt holds_ge_zero.1 (hx ▸ ha)),
        value_ite_of_holds (holds_ge_zero.2 (hy ▸ hb))]
      simp only [value_neg, value_div, hx, hy, Value.number_int]
      rw [quotient_of_nonneg (by omega), Int.neg_tdiv]
      by_cases h : y = 0 <;> simp [h, Int.not_le.1 ha]
    · rw [value_ite_of_not_holds (mt holds_ge_zero.1 (hx ▸ ha)),
        value_ite_of_not_holds (mt holds_ge_zero.1 (hy ▸ hb))]
      simp only [value_neg, value_div, hx, hy, Value.number_int]
      have h : y ≠ 0 := by omega
      rw [quotient_of_nonneg (by omega), Int.neg_tdiv, Int.tdiv_neg]
      simp [h]

theorem value_arithmetic (op : Arithmetic) (ty : IntegerType) (m : Model) (a b : Term) :
    (op.eval (fun n => some (m.byZero n)) ty (a.value m).number (b.value m).number).map Value.int =
      some ((op.term ty a b).value m) := by
  cases op with
  | add | sub | mul => rfl
  | div => exact value_quotient ty m a b

theorem value_comparison (op : Comparison) (m : Model) (a b : Term) :
    (op.term a b).value m = .bool (op.eval (a.value m) (b.value m)) := by
  cases op with
  | ne => simp [Comparison.term, Comparison.eval, value_ne]
  | eq | lt | le | gt | ge => rfl

end Term

namespace Draft

variable {Γ : Nat → Option Domain} {scope xs : List Expr} {L : Licence} {d d₁ d' : Draft} {e : Expr}
  {sort : TermSort} {t : Term} {m : Model}

/-- A draft that takes constraints and says nothing about divisors. -/
structure Unguarded (d : Draft) : Prop where
  phase : d.phase = .encoding
  settings : d.settings.guardsDivision = false

theorem Unguarded.later (h : d.Unguarded) (hl : Later d d') : d'.Unguarded :=
  ⟨hl.phase.trans h.phase, hl.settings ▸ h.settings⟩

theorem Stage.below (h : Stage Γ scope (e :: xs) d) : Stage Γ scope xs d :=
  ⟨h.ready, List.Subset.trans (List.subset_cons_self e xs) h.scope, h.awaits.below⟩

theorem Ready.variable (hd : d.Ready Γ scope) {id : Nat} {domain : Domain}
    (h : Γ id = some domain) : ∃ v, d.registered? id = some v ∧ v.domain = domain := by
  rw [← hd.declares id] at h
  exact Option.map_eq_some_iff.1 h

/-- A node has no symbol while its parts are encoded. -/
theorem Stage.unknown (h : Stage Γ scope (e :: xs) d) (hg : Grows L d d') (hL : L.nodes ⊆ xs) :
    d'.known.lookup e.id = none :=
  (h.awaits.above.rest hg hL).unknown e (List.mem_singleton.2 rfl)

/-- Variables that nothing is written to keep their values. -/
theorem Grows.store_eq (h : Grows L d d') (hw : ∀ id, ¬ L.writes id) (m : Model) :
    d'.store m = d.store m := by
  funext id
  rw [Draft.store_eq, Draft.store_eq, h.unwritten (hw id)]

/-! ### New symbols -/

/-- The draft after the definition of a new symbol. -/
def defined (d : Draft) (e : Expr) (sort : TermSort) (t : Term) : Draft :=
  (d.named e.id sort).emitted (.eq (e.term sort) t) e.location

@[simp] theorem store_defined : (d.defined e sort t).store m = d.store m := rfl

@[simp] theorem lookup_defined : (d.defined e sort t).known.lookup e.id = some sort := by
  simp [defined]

theorem yields_define_new (hp : d.phase = .encoding) (hk : d.known.lookup e.id = none)
    (hs : e.termSort = .ok sort) : Yields (define e t) d () (d.defined e sort t) :=
  yields_define.2 ⟨hp, sort, .inr ⟨hk, hs, rfl⟩⟩

theorem holdsIn_defined :
    (d.defined e sort t).HoldsIn m ↔
      d.HoldsIn m ∧ (d.Open m → (e.term sort).value m = t.value m) := by
  rw [defined, holdsIn_emitted, Term.holds_eq]
  rfl

/-- The draft after an assignment to a variable. -/
def assigned (d : Draft) (v : Registered) (t : Term) (location : Location) : Draft :=
  (d.advanced v.id).emitted (.eq (v.term (v.version + 1)) t) location

theorem yields_assign_new {v : Registered} {location : Location} (hp : d.phase = .encoding)
    (hv : d.registered? v.id = some v) :
    Yields (assign v.id t location) d () (d.assigned v t location) :=
  yields_assign.2 ⟨hp, .inr ⟨v, hv, rfl⟩⟩

theorem store_eq_some {id : Nat} {v : Registered} (hv : d.registered? id = some v) (m : Model) :
    d.store m id = some (v.current.value m) := by
  rw [store_eq, hv]
  rfl

/-! ### Evaluated expressions -/

/-- Encoding gives an expression the value that it has. -/
structure Evaluates (e : Expr) (sort : TermSort) (d d' : Draft) : Prop where
  yields : Yields e.encode d () d'
  known : d'.known.lookup e.id = some sort
  eval : ∀ m, d'.HoldsIn m → d.Open m →
    e.eval (.unbounded m.byZero) (d.store m) = some ((e.term sort).value m, d'.store m)

/-- An evaluated expression has a symbol from then on. -/
theorem Evaluates.valueOf {d₂ : Draft} (h : Evaluates e sort d d₁) (hl : Later d₁ d₂) :
    Yields (valueOf e) d₂ (e.term sort) d₂ :=
  (yields_valueOf_known (hl.known _ _ h.known)).2 ⟨rfl, rfl⟩

/-- A condition has the truth of its symbol. -/
theorem Evaluates.test (h : Evaluates e .bool d d') (hm : d'.HoldsIn m) (ho : d.Open m) :
    e.test (.unbounded m.byZero) (d.store m) =
      some (((e.term .bool).value m).truth, d'.store m) := by
  rw [Expr.test, h.eval m hm ho]
  rfl

theorem Evaluates.test_of_holds (h : Evaluates e .bool d d') (hm : d'.HoldsIn m) (ho : d.Open m)
    (hc : (e.term .bool).Holds m) :
    e.test (.unbounded m.byZero) (d.store m) = some (true, d'.store m) := by
  rw [h.test hm ho, show ((e.term .bool).value m).truth = true from hc]

theorem Evaluates.test_of_not_holds (h : Evaluates e .bool d d') (hm : d'.HoldsIn m)
    (ho : d.Open m) (hc : ¬ (e.term .bool).Holds m) :
    e.test (.unbounded m.byZero) (d.store m) = some (false, d'.store m) := by
  rw [h.test hm ho, show ((e.term .bool).value m).truth = false from Bool.eq_false_iff.2 hc]

theorem Evaluates.of_define (hu : d₁.Unguarded) (hk : d₁.known.lookup e.id = none)
    (hs : e.termSort = .ok sort) (hp : d₁.path = d.path)
    (hy : ∀ d', Yields (define e t) d₁ () d' → Yields e.encode d () d')
    (heval : ∀ m, d₁.HoldsIn m → d.Open m →
      e.eval (.unbounded m.byZero) (d.store m) = some (t.value m, d₁.store m)) :
    Evaluates e sort d (d₁.defined e sort t) where
  yields := hy _ (yields_define_new hu.phase hk hs)
  known := lookup_defined
  eval m hm ho := by
    obtain ⟨hm, hv⟩ := holdsIn_defined.1 hm
    have ho' : d₁.Open m := by rwa [Open, pathCondition, hp]
    rw [heval m hm ho, hv ho', store_defined]

theorem yields_literal_bool {b : Bool} {u : Unit} (ht : e.ty = .bool) :
    Yields (literal e (.bool b)) d u d' ↔ Yields (define e (.ofBool b)) d u d' := by
  unfold literal
  rw [ht]

theorem yields_literal_number {q : Rat} {u : Unit} (hq : q.den = 1) (hs : e.termSort = .ok .int) :
    Yields (literal e (.number q)) d u d' ↔ Yields (define e (.ofInt q.num)) d u d' := by
  unfold Expr.termSort at hs
  unfold literal
  split at hs <;> rename_i ht
  · rw [ht]
    simp [hq]
  · rw [ht]
    simp [hq]
  · cases hs
  · cases hs

theorem yields_identifier {node : Node} {name : String} {id : Nat} {v : Registered} {u : Unit}
    {domain : Domain} (ht : node.ty = domain.ty) (hv : d.registered? id = some v) :
    Yields (identifier (.identifier node name (some id) false) name (some id) false) d u d' ↔
      Yields (define (.identifier node name (some id) false) v.current) d u d' := by
  unfold identifier
  simp only [Expr.ty, Expr.node, ht]
  cases domain <;> simp [Domain.ty, defineFromVariable, current?, hv]

end Draft

namespace Source.Expr

open Draft

variable {Γ : Nat → Option Domain} {scope : List Expr} {d d₁ d' : Draft} {e : Expr}
    {sort : TermSort}

theorem Typed.grows (h : Typed Γ e sort) (hst : Stage Γ scope e.nodes d)
    (hy : Yields e.encode d () d') : Grows (e.licence d.settings) d d' :=
  grows_encode e hst.ready hst.scope h.consistent hst.awaits hy

theorem evaluates_literal_bool {node : Node} {b : Bool} (ht : node.ty = .bool)
    (hst : Stage Γ scope (literal node (.bool b)).nodes d) (hu : d.Unguarded) :
    ∃ d', Evaluates (.literal node (.bool b)) .bool d d' := by
  refine ⟨_, .of_define (t := .ofBool b) hu (hst.awaits.unknown _ (mem_nodes_self _))
    (Typed.termSort_of_bool ht) rfl (fun d' hy => ?_) (fun m _ _ => ?_)⟩
  · exact (yields_literal_bool (e := .literal node (.bool b)) ht).2 hy
  · rw [Term.value_ofBool]
    rfl

theorem evaluates_literal_number {node : Node} {q : Rat} (hq : q.den = 1)
    (ht : (literal node (.number q)).termSort = .ok .int)
    (hst : Stage Γ scope (literal node (.number q)).nodes d) (hu : d.Unguarded) :
    ∃ d', Evaluates (.literal node (.number q)) .int d d' := by
  refine ⟨_, .of_define (t := .ofInt q.num) hu (hst.awaits.unknown _ (mem_nodes_self _)) ht rfl
    (fun d' hy => (yields_literal_number hq ht).2 hy) (fun m _ _ => ?_)⟩
  rw [Term.value_ofInt]
  simp [eval, hq]

theorem evaluates_identifier {node : Node} {name : String} {id : Nat} {domain : Domain}
    (hd : Γ id = some domain) (ht : node.ty = domain.ty)
    (hst : Stage Γ scope (identifier node name (some id) false).nodes d) (hu : d.Unguarded) :
    ∃ d', Evaluates (.identifier node name (some id) false) domain.sort d d' := by
  obtain ⟨v, hv, -⟩ := hst.ready.variable hd
  refine ⟨_, .of_define (t := v.current) hu (hst.awaits.unknown _ (mem_nodes_self _))
    (Typed.termSort_of_ty ht) rfl (fun d' hy => (yields_identifier ht hv).2 hy) (fun m _ _ => ?_)⟩
  simp [eval, store_eq_some hv]

/-- A target is left unread, or read in vain. -/
theorem exists_encode_target {m : Node} {name : String} {id : Nat} {domain : Domain}
    (isTarget : Bool) (hd : Γ id = some domain) (hm : m.ty = domain.ty)
    (hst : Stage Γ scope (identifier m name (some id) isTarget).nodes d) (hu : d.Unguarded) :
    ∃ d', Yields (encode (.identifier m name (some id) isTarget)) d () d' ∧
      Grows (licence (.identifier m name (some id) isTarget) d.settings) d d' := by
  have hc : Consistent Γ (.identifier m name (some id) isTarget) := by
    simpa [Consistent, nodes] using Typed.identifier_agrees hd hm
  obtain ⟨d', hy⟩ : ∃ d', Yields (encode (.identifier m name (some id) isTarget)) d () d' := by
    cases isTarget with
    | true => exact ⟨d, yields_pure.2 ⟨rfl, rfl⟩⟩
    | false =>
      obtain ⟨d', h⟩ := evaluates_identifier hd hm hst hu
      exact ⟨d', h.yields⟩
  exact ⟨d', hy, grows_encode _ hst.ready hst.scope hc hst.awaits hy⟩

/-- The operand of a unary node, evaluated before the node. -/
theorem operand_parts {node : Node} {op : UnaryOp} {isBefore : Bool} {operand : Expr} {s : TermSort}
    (ho : Typed Γ operand s) (hst : Stage Γ scope (unary node op isBefore operand).nodes d)
    (hu : d.Unguarded) (h : Evaluates operand s d d₁) :
    d₁.Unguarded ∧ d₁.known.lookup (unary node op isBefore operand).id = none ∧
      d₁.path = d.path := by
  have hg := ho.grows hst.below h.yields
  exact ⟨hu.later hg.later, hst.unknown hg (List.Subset.refl _), hg.path⟩

theorem evaluates_not {node : Node} {isBefore : Bool} {operand : Expr} (ho : Typed Γ operand .bool)
    (ht : node.ty = .bool) (hst : Stage Γ scope (unary node .not isBefore operand).nodes d)
    (hu : d.Unguarded) (h : Evaluates operand .bool d d₁) :
    ∃ d', Evaluates (.unary node .not isBefore operand) .bool d d' := by
  obtain ⟨hu₁, hk, hp⟩ := operand_parts ho hst hu h
  refine ⟨_, .of_define (t := .not (operand.term .bool)) hu₁ hk (Typed.termSort_of_bool ht) hp
    (fun d' hy => ?_) (fun m hm hopen => ?_)⟩
  · refine yields_seq.2 ⟨d₁, h.yields, yields_not.2 ⟨?_, _, d₁, h.valueOf (.refl d₁), hy⟩⟩
    rw [ht]
    rfl
  · simp [eval, h.eval m hm hopen, Term.value]

theorem evaluates_plus {node : Node} {isBefore : Bool} {operand : Expr} (ho : Typed Γ operand .int)
    (ht : (unary node .plus isBefore operand).termSort = .ok .int)
    (hst : Stage Γ scope (unary node .plus isBefore operand).nodes d) (hu : d.Unguarded)
    (h : Evaluates operand .int d d₁) :
    ∃ d', Evaluates (.unary node .plus isBefore operand) .int d d' := by
  obtain ⟨hu₁, hk, hp⟩ := operand_parts ho hst hu h
  refine ⟨_, .of_define (t := operand.term .int) hu₁ hk ht hp (fun d' hy => ?_)
    (fun m hm hopen => h.eval m hm hopen)⟩
  exact yields_seq.2 ⟨d₁, h.yields, yields_bind.2 ⟨_, d₁, h.valueOf (.refl d₁), hy⟩⟩

theorem evaluates_minus {node : Node} {isBefore : Bool} {operand : Expr} (ho : Typed Γ operand .int)
    (ht : (unary node .minus isBefore operand).termSort = .ok .int)
    (hst : Stage Γ scope (unary node .minus isBefore operand).nodes d) (hu : d.Unguarded)
    (h : Evaluates operand .int d d₁) :
    ∃ d', Evaluates (.unary node .minus isBefore operand) .int d d' := by
  obtain ⟨hu₁, hk, hp⟩ := operand_parts ho hst hu h
  refine ⟨_, .of_define (t := .neg (operand.term .int)) hu₁ hk ht hp (fun d' hy => ?_)
    (fun m hm hopen => ?_)⟩
  · exact yields_seq.2 ⟨d₁, h.yields, yields_bind.2 ⟨_, d₁, h.valueOf (.refl d₁), hy⟩⟩
  · simp [eval, h.eval m hm hopen]

/-- Both sides of a binary node, evaluated before the node. -/
structure Sides (node : Node) (op : BinaryOp) (left right : Expr) (common : Ty) (s : TermSort)
    (d d₁ d₂ : Draft) : Prop where
  first : Evaluates left s d d₁
  second : Evaluates right s d₁ d₂
  grows : Grows (left.licence d.settings) d d₁
  later : Grows (right.licence d₁.settings) d₁ d₂
  unguarded : d₂.Unguarded
  unknown : d₂.known.lookup (binary node op left right common).id = none

namespace Sides

variable {node : Node} {op : BinaryOp} {left right : Expr} {common : Ty} {s : TermSort}
  {d₂ : Draft} {m : Model}

theorem of_typed (hl : Typed Γ left s) (hr : Typed Γ right s)
    (hst : Stage Γ scope (binary node op left right common).nodes d) (hu : d.Unguarded)
    (ihl : ∀ {d}, Stage Γ scope left.nodes d → d.Unguarded → ∃ d', Evaluates left s d d')
    (ihr : ∀ {d}, Stage Γ scope right.nodes d → d.Unguarded → ∃ d', Evaluates right s d d') :
    ∃ d₁ d₂, Sides node op left right common s d d₁ d₂ := by
  obtain ⟨d₁, h₁⟩ := ihl hst.below.left hu
  have hg₁ := hl.grows hst.below.left h₁.yields
  have hst₁ := hst.below.next hg₁ (List.Subset.refl _)
  obtain ⟨d₂, h₂⟩ := ihr hst₁ (hu.later hg₁.later)
  have hg₂ := hr.grows hst₁ h₂.yields
  have hg := Grows.both hg₁ hg₂ (w := fun _ => True) (fun _ _ => trivial) (fun _ _ => trivial)
  exact ⟨d₁, d₂, h₁, h₂, hg₁, hg₂, hu.later hg.later, hst.unknown hg (List.Subset.refl _)⟩

theorem path (h : Sides node op left right common s d d₁ d₂) : d₂.path = d.path :=
  h.later.path.trans h.grows.path

theorem yields (h : Sides node op left right common s d d₁ d₂)
    (hy : Yields (Draft.binary (.binary node op left right common)) d₂ () d') :
    Yields (encode (.binary node op left right common)) d () d' :=
  yields_seq.2 ⟨d₁, h.first.yields, yields_seq.2 ⟨d₂, h.second.yields, hy⟩⟩

theorem valueOf_left (h : Sides node op left right common s d d₁ d₂) :
    Yields (valueOf left) d₂ (left.term s) d₂ := h.first.valueOf h.later.later

theorem valueOf_right (h : Sides node op left right common s d d₁ d₂) :
    Yields (valueOf right) d₂ (right.term s) d₂ := h.second.valueOf (.refl d₂)

theorem eval_left (h : Sides node op left right common s d d₁ d₂) (hm : d₂.HoldsIn m)
    (ho : d.Open m) :
    left.eval (.unbounded m.byZero) (d.store m) = some ((left.term s).value m, d₁.store m) :=
  h.first.eval m (h.later.later.holdsIn hm) ho

theorem eval_right (h : Sides node op left right common s d d₁ d₂) (hm : d₂.HoldsIn m)
    (ho : d.Open m) :
    right.eval (.unbounded m.byZero) (d₁.store m) = some ((right.term s).value m, d₂.store m) :=
  h.second.eval m hm (h.grows.open_iff.2 ho)

end Sides

theorem evaluates_arithmetic {node : Node} {op : Arithmetic} {left right : Expr} {ty : IntegerType}
    {d₂ : Draft} (ht : (binary node (.arithmetic op) left right (.integer ty)).termSort = .ok .int)
    (h : Sides node (.arithmetic op) left right (.integer ty) .int d d₁ d₂) :
    ∃ d', Evaluates (.binary node (.arithmetic op) left right (.integer ty)) .int d d' := by
  refine ⟨_, .of_define (t := op.term ty (left.term .int) (right.term .int)) h.unguarded h.unknown
    ht
    h.path (fun d' hy => h.yields ?_) (fun m hm ho => ?_)⟩
  · have hty : (Ty.integer ty).integer? = some ty := rfl
    refine yields_binaryArithmetic.2 ⟨ty, _, d₂, _, d₂, _, d₂, hty, h.valueOf_left, h.valueOf_right,
      yields_arithmetic.2 ⟨rfl, ?_⟩, hy⟩
    simp [h.unguarded.settings]
  · have hv := Term.value_arithmetic op ty m (left.term .int) (right.term .int)
    obtain ⟨z, hz, hzv⟩ := Option.map_eq_some_iff.1 hv
    simp only [eval, Ty.integer?, h.eval_left hm ho, h.eval_right hm ho, Option.bind_eq_bind,
      Option.bind_some, ← hzv]
    simp [Rules.unbounded, hz]

theorem evaluates_comparison {node : Node} {op : Comparison} {left right : Expr} {common : Ty}
    {s : TermSort} {d₂ : Draft} (hc : common.variableSort = .ok s)
    (hb : s = .bool → op.isEquality = true) (ht : node.ty = .bool)
    (h : Sides node (.comparison op) left right common s d d₁ d₂) :
    ∃ d', Evaluates (.binary node (.comparison op) left right common) .bool d d' := by
  refine ⟨_, .of_define (t := op.term (left.term s) (right.term s)) h.unguarded h.unknown
    (Typed.termSort_of_bool ht) h.path (fun d' hy => h.yields ?_) (fun m hm ho => ?_)⟩
  · exact yields_comparison.2 (.inr ⟨s, hc, hb, _, d₂, _, d₂, h.valueOf_left, h.valueOf_right, hy⟩)
  · simp [eval, h.eval_left hm ho, h.eval_right hm ho, Term.value_comparison]

/-- The second side is encoded even where it is not evaluated, but then it changes nothing. -/
theorem evaluates_connective {node : Node} {op : Connective} {left right : Expr} {d₂ : Draft}
    (hw : right.writes = []) (ht : node.ty = .bool)
    (h : Sides node (.connective op) left right .bool .bool d d₁ d₂) :
    ∃ d', Evaluates (.binary node (.connective op) left right .bool) .bool d d' := by
  refine ⟨_, .of_define (t := op.term (left.term .bool) (right.term .bool)) h.unguarded h.unknown
    (Typed.termSort_of_bool ht) h.path (fun d' hy => h.yields ?_) (fun m hm ho => ?_)⟩
  · exact yields_connective.2 (.inr ⟨rfl, _, d₂, _, d₂, h.valueOf_left, h.valueOf_right, hy⟩)
  · have hs : d₂.store m = d₁.store m := by
      refine h.later.store_eq (fun id hid => ?_) m
      have hid' : id ∈ right.writes := hid
      rw [hw] at hid'
      cases hid'
    have hl := h.eval_left hm ho
    have hr := h.eval_right hm ho
    obtain ⟨x, hx⟩ : ∃ x, (left.term .bool).value m = .bool x := ⟨_, rfl⟩
    obtain ⟨y, hy⟩ : ∃ y, (right.term .bool).value m = .bool y := ⟨_, rfl⟩
    rw [hx] at hl
    rw [hy, hs] at hr
    rw [hs]
    cases op with
    | and =>
      rw [Connective.term, Term.value_and, hx, hy]
      cases x <;> simp [eval, hl, hr]
    | or =>
      rw [Connective.term, Term.value_or, hx, hy]
      cases x <;> simp [eval, hl, hr]

/-! ### Writes -/

theorem value_stepped {isUp : Bool} {m : Model} {t : Term} :
    (stepped isUp t).value m = .int ((t.value m).number + if isUp then 1 else -1) := by
  cases isUp with
  | true => simp [stepped, Term.value, Dyadic.value, Value.number]
  | false => simp [stepped, Term.value, Dyadic.value, Value.number, Int.sub_eq_add_neg]

theorem write_unbounded {d : Draft} {v : Registered} (hv : d.registered? v.id = some v) (m : Model)
    (x : Value) :
    (Rules.unbounded m.byZero).write (d.store m) v.id x =
      some (Function.update (d.store m) v.id (some x)) := by
  simp [Rules.write, Rules.unbounded, store_eq_some hv]

/-- An assignment writes the value of its term. -/
theorem write_assigned {d : Draft} {v : Registered} {t : Term} {location : Location} {m : Model}
    (hv : d.registered? v.id = some v) (hm : (d.assigned v t location).HoldsIn m) (ho : d.Open m) :
    (Rules.unbounded m.byZero).write (d.store m) v.id (t.value m) =
      some ((d.assigned v t location).store m) := by
  have hf := Term.holds_eq.1 ((holdsIn_emitted.1 hm).2 ho)
  rw [write_unbounded hv, assigned, store_write m hv, ← hf]
  rfl

theorem evaluates_step {node n : Node} {op : UnaryOp} {isBefore isTarget : Bool} {name : String}
    {id : Nat} {ty : IntegerType} (isUp : Bool) (hop : op = if isUp then .increment else .decrement)
    (hd : Γ id = some (.integer ty)) (hn : n.ty = .integer ty) (ht : node.ty = .integer ty)
    (hst : Stage Γ scope (unary node op isBefore (.identifier n name (some id) isTarget)).nodes d)
    (hu : d.Unguarded) :
    ∃ d', Evaluates (.unary node op isBefore (.identifier n name (some id) isTarget)) .int d d' :=
    by
  obtain ⟨d₁, h₁, hg⟩ := exists_encode_target isTarget hd hn hst.below hu
  obtain ⟨v, hv, -⟩ := (hst.ready.grows hg (hst.below.scope)).variable hd
  obtain rfl := id_of_registered? hv
  have hu₁ := hu.later hg.later
  have hk := hst.unknown hg (List.Subset.refl _)
  have hsame : ∀ m, d₁.store m = d.store m := hg.store_eq fun id hid => by cases hid
  have hu₂ : (d₁.assigned v (stepped isUp v.current) node.location).Unguarded :=
    hu₁.later (Later.advanced.trans .emitted)
  refine ⟨_, .of_define (t := if isBefore then stepped isUp v.current else v.current) hu₂ hk
    (Typed.termSort_of_int ht) hg.path
    (fun d' hy => yields_seq.2 ⟨d₁, h₁, ?_⟩) (fun m hm ho => ?_)⟩
  · have hs : Yields (Draft.step (.unary node op isBefore (.identifier n name (some v.id) isTarget))
        isUp isBefore (.identifier n name (some v.id) isTarget)) d₁ () d' := by
      refine (yields_step_identifier hv).2 ⟨?_, _, yields_assign_new hu₁.phase hv, hy⟩
      simp [Expr.ty, Expr.node, ht, Ty.integer?]
    cases isUp with
    | true => exact hop ▸ hs
    | false => exact hop ▸ hs
  · have hw := write_assigned hv hm (hg.open_iff.2 ho)
    rw [value_stepped, hsame] at hw
    have hold : d.store m v.id = some (v.current.value m) := by rw [← hsame, store_eq_some hv]
    cases isUp <;> cases isBefore <;>
      simp_all [eval, referenced?, Rules.step, value_stepped]

/-- An assignment of a term that stands for the assigned value. -/
theorem evaluates_assignment {node n : Node} {op : AssignOp} {isTarget : Bool} {name : String}
    {id : Nat} {value : Expr} {domain : Domain} {s : TermSort} (hv : Typed Γ value s)
    (hd : Γ id = some domain) (hn : n.ty = domain.ty) (ht : node.ty = domain.ty)
    (hst : Stage Γ scope
      (assignment node op (.identifier n name (some id) isTarget) value).nodes d)
    (hu : d.Unguarded) (h : Evaluates value s d d₁)
    (hval : ∀ {d : Draft} {v : Registered}, d.registered? id = some v → d.Unguarded → ∃ t,
      Yields (assignedValue (.assignment node op (.identifier n name (some id) isTarget) value)
        (.identifier n name (some id) isTarget) op id (value.term s)) d (some t) d ∧
      ∀ m σ, value.eval (.unbounded m.byZero) σ = some ((value.term s).value m, d.store m) →
        eval (.unbounded m.byZero)
            (.assignment node op (.identifier n name (some id) isTarget) value) σ =
          ((Rules.unbounded m.byZero).write (d.store m) id (t.value m)).map fun τ =>
          (t.value m, τ)) :
    ∃ d', Evaluates (.assignment node op (.identifier n name (some id) isTarget) value)
      domain.sort d d' := by
  have hg₁ := hv.grows hst.below.left h.yields
  have hst₁ := hst.below.next hg₁ (List.Subset.refl _)
  obtain ⟨d₂, h₂, hg₂⟩ := exists_encode_target isTarget hd hn hst₁ (hu.later hg₁.later)
  obtain ⟨v, hr, -⟩ := (hst₁.ready.grows hg₂ hst₁.scope).variable hd
  obtain rfl := id_of_registered? hr
  have hu₂ := (hu.later hg₁.later).later hg₂.later
  have hg := Grows.both hg₁ hg₂ (w := fun _ => True) (fun _ _ => trivial) (fun _ _ => trivial)
  have hk := hst.unknown hg (List.Subset.refl _)
  have hsame : ∀ m, d₂.store m = d₁.store m := hg₂.store_eq fun id hid => by cases hid
  obtain ⟨t, hy₂, heval⟩ := hval hr hu₂
  have hu₃ : (d₂.assigned v t node.location).Unguarded :=
    hu₂.later (Later.advanced.trans .emitted)
  refine ⟨_, .of_define (t := t) hu₃ hk (Typed.termSort_of_ty ht) hg.path
    (fun d' hy => ?_) (fun m hm ho => ?_)⟩
  · refine yields_seq.2 ⟨d₁, h.yields, yields_seq.2 ⟨d₂, h₂, yields_assignment.2 (.inr
      ⟨⟨domain.sort, ?_⟩, _, d₂, some t, d₂, h.valueOf hg₂.later, hy₂, .inr
        ⟨t, _, rfl, yields_assign_new hu₂.phase hr, hy⟩⟩)⟩⟩
    rw [hn, Domain.variableSort_ty]
  · have hm₂ : d₂.HoldsIn m := (holdsIn_emitted.1 hm).1
    have hx := h.eval m (hg₂.later.holdsIn hm₂) ho
    rw [← hsame] at hx
    rw [heval m _ hx, write_assigned hr hm (hg.open_iff.2 ho)]
    rfl

theorem evaluates_assign {node n : Node} {isTarget : Bool} {name : String} {id : Nat} {value : Expr}
    {domain : Domain} (hv : Typed Γ value domain.sort) (hd : Γ id = some domain)
    (hn : n.ty = domain.ty) (ht : node.ty = domain.ty)
    (hst : Stage Γ scope
      (assignment node .plain (.identifier n name (some id) isTarget) value).nodes d)
    (hu : d.Unguarded) (h : Evaluates value domain.sort d d₁) :
    ∃ d', Evaluates (.assignment node .plain (.identifier n name (some id) isTarget) value)
      domain.sort d d' := by
  refine evaluates_assignment hv hd hn ht hst hu h fun {d v} hr hu => ⟨_,
    yields_assignedValue.2 (.inl ⟨rfl, rfl, rfl⟩), fun m σ hx => ?_⟩
  cases hw : (Rules.unbounded m.byZero).write (d.store m) id ((value.term domain.sort).value m) <;>
    simp [eval, referenced?, hx, hw]

theorem evaluates_compound {node n : Node} {op : Arithmetic} {isTarget : Bool} {name : String}
    {id : Nat} {value : Expr} {ty : IntegerType} (hv : Typed Γ value .int)
    (hd : Γ id = some (.integer ty)) (hn : n.ty = .integer ty) (ht : node.ty = .integer ty)
    (hst : Stage Γ scope
      (assignment node (.arithmetic op) (.identifier n name (some id) isTarget) value).nodes d)
    (hu : d.Unguarded) (h : Evaluates value .int d d₁) :
    ∃ d', Evaluates (.assignment node (.arithmetic op) (.identifier n name (some id) isTarget)
    value)
      .int d d' := by
  have hty : (identifier n name (some id) isTarget).ty.integer? = some ty := by
    rw [Expr.ty, Expr.node, hn]
    rfl
  have hn' : n.ty = (Domain.integer ty).ty := hn
  have ht' : node.ty = (Domain.integer ty).ty := ht
  refine evaluates_assignment hv hd hn' ht' hst hu h fun {d v} hr hu =>
    ⟨op.term ty v.current (value.term .int), ?_, fun m σ hx => ?_⟩
  · refine yields_assignedValue.2 (.inr ⟨op, ty, rfl, hty, .inr ⟨v, _, hr, rfl,
      yields_arithmetic.2 ⟨rfl, ?_⟩⟩⟩)
    simp [hu.settings]
  · obtain ⟨z, hz, hzv⟩ :=
      Option.map_eq_some_iff.1 (Term.value_arithmetic op ty m v.current (value.term .int))
    rw [← hzv]
    have hz' : op.eval (Rules.unbounded m.byZero).byZero ty (v.current.value m).number
        ((value.term .int).value m).number = some z := hz
    cases hw : (Rules.unbounded m.byZero).write (d.store m) id (.int z) <;>
      simp [eval, referenced?, hx, hty, store_eq_some hr, hz', hw]

theorem evaluates_tuple {node : Node} {single : Expr} (hs : Typed Γ single sort)
    (ht : (tuple node [single] false).termSort = .ok sort)
    (hst : Stage Γ scope (tuple node [single] false).nodes d) (hu : d.Unguarded)
    (h : Evaluates single sort d d₁) : ∃ d', Evaluates (.tuple node [single] false) sort d d' := by
  have hst' : Stage Γ scope (tuple node [single] false :: single.nodes) d := by
    have hn : (tuple node [single] false).nodes = tuple node [single] false :: single.nodes := by
      simp [nodes, nodesOfAll]
    exact hn ▸ hst
  have hg := hs.grows hst'.below h.yields
  refine ⟨_, .of_define (t := single.term sort) (hu.later hg.later)
    (hst'.unknown hg (List.Subset.refl _)) ht hg.path (fun d' hy => ?_) (fun m hm ho => ?_)⟩
  · refine yields_seq.2 ⟨d₁, yields_seq.2 ⟨d₁, h.yields, yields_pure.2 ⟨rfl, rfl⟩⟩, ?_⟩
    have hsort : (tuple node [single] false).hasTermSort = true := by
      rw [hasTermSort, ht]
      rfl
    rw [Draft.tuple, if_pos hsort]
    exact yields_bind.2 ⟨_, d₁, h.valueOf (.refl d₁), hy⟩
  · exact h.eval m hm ho

/-- An expression of the fragment can be encoded, and has the value that it is given. -/
theorem Typed.evaluates (h : Typed Γ e sort) (hst : Stage Γ scope e.nodes d) (hu : d.Unguarded) :
    ∃ d', Evaluates e sort d d' := by
  induction h generalizing d with
  | bool ht => exact evaluates_literal_bool ht hst hu
  | number hq ht => exact evaluates_literal_number hq ht hst hu
  | identifier hd ht => exact evaluates_identifier hd ht hst hu
  | not ho ht ih =>
    obtain ⟨d₁, h₁⟩ := ih hst.below hu
    exact evaluates_not ho ht hst hu h₁
  | step hop hd hm ht =>
    rcases hop with rfl | rfl
    · exact evaluates_step true rfl hd hm ht hst hu
    · exact evaluates_step false rfl hd hm ht hst hu
  | plus ho ht ih =>
    obtain ⟨d₁, h₁⟩ := ih hst.below hu
    exact evaluates_plus ho ht hst hu h₁
  | minus ho ht ih =>
    obtain ⟨d₁, h₁⟩ := ih hst.below hu
    exact evaluates_minus ho ht hst hu h₁
  | arithmetic hl hr ht ihl ihr =>
    obtain ⟨d₁, d₂, hs⟩ := Sides.of_typed hl hr hst hu ihl ihr
    exact evaluates_arithmetic ht hs
  | comparison hl hr hc hb ht ihl ihr =>
    obtain ⟨d₁, d₂, hs⟩ := Sides.of_typed hl hr hst hu ihl ihr
    exact evaluates_comparison hc hb ht hs
  | connective hl hr hw ht ihl ihr =>
    obtain ⟨d₁, d₂, hs⟩ := Sides.of_typed hl hr hst hu ihl ihr
    exact evaluates_connective hw ht hs
  | assign hv hd hm ht ih =>
    obtain ⟨d₁, h₁⟩ := ih hst.below.left hu
    exact evaluates_assign hv hd hm ht hst hu h₁
  | compound hv hd hm ht ih =>
    obtain ⟨d₁, h₁⟩ := ih hst.below.left hu
    exact evaluates_compound hv hd hm ht hst hu h₁
  | tuple hs ht ih =>
    have hst' := hst
    simp only [nodes, nodesOfAll, List.append_nil] at hst'
    obtain ⟨d₁, h₁⟩ := ih hst'.below hu
    exact evaluates_tuple hs ht hst hu h₁

theorem Typed.evaluates_of_yields (h : Typed Γ e sort) (hst : Stage Γ scope e.nodes d)
    (hu : d.Unguarded) (hy : Yields e.encode d () d') : Evaluates e sort d d' := by
  obtain ⟨d₁, h₁⟩ := h.evaluates hst hu
  obtain ⟨-, rfl⟩ := h₁.yields.unique hy
  exact h₁

/-! ### Conditions -/

/-- A condition that has been evaluated. -/
theorem condition_evaluates {condition : Expr} {next : List Expr}
    (hc : Typed Γ condition .bool) (hst : Stage Γ scope (condition.nodes ++ next) d)
    (hu : d.Unguarded) :
    ∃ d₁, Evaluates condition .bool d d₁ ∧ Stage Γ scope next d₁ ∧ d₁.Unguarded := by
  obtain ⟨d₁, h₁⟩ := hc.evaluates hst.left hu
  have hg := hc.grows hst.left h₁.yields
  exact ⟨d₁, h₁, hst.next hg (List.Subset.refl _), hu.later hg.later⟩

theorem Typed.not_asserted (h : Typed Γ e sort) : e.asserted? = none := by
  cases h <;> rfl

/-- An assertion emits its condition. -/
theorem yields_assertion {e condition : Expr} (h : e.asserted? = some condition) :
    Yields e.encode d () d' ↔
      ∃ d₁, Yields condition.encode d () d₁ ∧ Yields (assume condition) d₁ () d' := by
  unfold asserted? at h
  split at h
  · split at h <;> cases h <;> rename_i hty <;> simp only [encode, hty, yields_seq]
  · cases h

theorem yields_assume_evaluated {condition : Expr} (hc : Typed Γ condition .bool)
    (h : Evaluates condition .bool d d₁) (hp : d₁.phase = .encoding) :
    Yields (assume condition) d₁ () d' ↔
      d' = d₁.emitted (condition.term .bool) condition.location := by
  have hb : condition.ty.isBool = true := by
    rw [Typed.ty_of_bool hc.termSort]
    rfl
  simp [yields_assume, hp, hb, yields_valueOf_known h.known]

theorem nodes_of_asserted {e condition : Expr} (h : e.asserted? = some condition) :
    ∃ rest, e.nodes = e :: (condition.nodes ++ rest) := by
  unfold asserted? at h
  split at h
  · split at h <;> cases h <;> exact ⟨_, by simp [nodes, nodesOfAll]; rfl⟩
  · cases h

theorem stage_asserted {e condition : Expr} (ha : e.asserted? = some condition)
    (hst : Stage Γ scope e.nodes d) : ∃ rest, Stage Γ scope (condition.nodes ++ rest) d := by
  obtain ⟨rest, hn⟩ := nodes_of_asserted ha
  rw [hn] at hst
  exact ⟨rest, hst.below⟩

/-- An encoded assertion, with its condition evaluated. -/
theorem assertion_evaluated {e condition : Expr} (ha : e.asserted? = some condition)
    (hc : Typed Γ condition .bool) (hst : Stage Γ scope e.nodes d) (hu : d.Unguarded)
    (hy : Yields e.encode d () d') :
    ∃ d₁, Stage Γ scope condition.nodes d ∧ Evaluates condition .bool d d₁ ∧
      Grows (condition.licence d.settings) d d₁ ∧
      d' = d₁.emitted (condition.term .bool) condition.location := by
  obtain ⟨rest, hst'⟩ := stage_asserted ha hst
  obtain ⟨d₁, h₁, h₂⟩ := (yields_assertion ha).1 hy
  have hev := hc.evaluates_of_yields hst'.left hu h₁
  have hg := hc.grows hst'.left h₁
  exact ⟨d₁, hst'.left, hev, hg, (yields_assume_evaluated hc hev (hu.later hg.later).phase).1 h₂⟩

end Source.Expr

/-! ### Other rules -/

namespace Source

/-- The rules have no other quotients by zero than a function. -/
def Rules.Within (rules : Rules) (byZero : Int → Int) : Prop :=
  ∀ a q, rules.byZero a = some q → q = byZero a

variable {rules : Rules} {byZero : Int → Int}

theorem Rules.write_within {σ τ : Store} {id : Nat} {x : Value}
    (h : rules.write σ id x = some τ) : (Rules.unbounded byZero).write σ id x = some τ := by
  unfold Rules.write at h ⊢
  split at h
  · rename_i hc
    simp only [Bool.and_eq_true] at hc
    simpa [Rules.unbounded, hc.1] using h
  · cases h

variable (hw : rules.Within byZero)
include hw

theorem Arithmetic.eval_within {op : Arithmetic} {ty : IntegerType} {a b z : Int}
    (h : op.eval rules.byZero ty a b = some z) :
    op.eval (Rules.unbounded byZero).byZero ty a b = some z := by
  cases op with
  | add | sub | mul => exact h
  | div =>
    simp only [Arithmetic.eval, IntegerType.quotient] at h ⊢
    split at h
    · rwa [if_pos ‹_›]
    · rw [if_neg ‹_›]
      split at h
      · rw [if_pos ‹_›]
        obtain ⟨q, hq, rfl⟩ := Option.map_eq_some_iff.1 h
        rw [hw _ _ hq]
        rfl
      · rw [if_neg ‹_›, hw _ _ h]
        rfl

/-- What has a value under some rules has it in unbounded execution. -/
theorem Expr.Typed.eval_within {Γ : Nat → Option Domain} {e : Expr} {sort : TermSort}
    (h : Typed Γ e sort) {σ : Store} {r : Value × Store} (hr : e.eval rules σ = some r) :
    e.eval (.unbounded byZero) σ = some r := by
  induction h generalizing σ r with
  | bool | number | identifier => simpa [eval] using hr
  | not _ _ ih | minus _ _ ih =>
    obtain ⟨p, hp, rfl⟩ := Option.map_eq_some_iff.1 hr
    simp [eval, ih hp]
  | plus _ _ ih => exact ih hr
  | tuple _ _ ih => exact ih hr
  | step hop =>
    rcases hop with rfl | rfl <;>
    · simp only [eval, referenced?, Option.bind_some, Rules.step, Option.bind_eq_bind,
        Option.bind_eq_some_iff] at hr ⊢
      obtain ⟨old, hold, τ, hτ, hr⟩ := hr
      exact ⟨old, hold, τ, Rules.write_within hτ, hr⟩
  | arithmetic _ _ _ ihl ihr =>
    simp only [eval, Option.bind_eq_bind, Option.bind_eq_some_iff] at hr ⊢
    obtain ⟨ty, hty, x, hx, y, hy, z, hz, hr⟩ := hr
    exact ⟨ty, hty, x, ihl hx, y, ihr hy, z, Arithmetic.eval_within hw hz, hr⟩
  | comparison _ _ _ _ _ ihl ihr =>
    simp only [eval, Option.bind_eq_bind, Option.bind_eq_some_iff] at hr ⊢
    obtain ⟨x, hx, y, hy, hr⟩ := hr
    exact ⟨x, ihl hx, y, ihr hy, hr⟩
  | @connective _ op _ _ _ _ _ _ ihl ihr =>
    cases op <;>
    · simp only [eval, Option.bind_eq_bind, Option.bind_eq_some_iff] at hr ⊢
      obtain ⟨x, hx, hr⟩ := hr
      refine ⟨x, ihl hx, ?_⟩
      split at hr
      · rw [if_pos ‹_›]
        first | exact hr | exact ihr hr
      · rw [if_neg ‹_›]
        first | exact hr | exact ihr hr
  | assign _ _ _ _ ih =>
    simp only [eval, referenced?, Option.bind_eq_bind, Option.bind_eq_some_iff] at hr ⊢
    obtain ⟨id, hid, x, hx, y, hy, τ, hτ, hr⟩ := hr
    exact ⟨id, hid, x, ih hx, y, hy, τ, Rules.write_within hτ, hr⟩
  | compound _ _ _ _ ih =>
    simp only [eval, referenced?, Option.bind_eq_bind, Option.bind_eq_some_iff] at hr ⊢
    obtain ⟨id, hid, x, hx, ty, hty, old, hold, y, hy, τ, hτ, hr⟩ := hr
    obtain ⟨z, hz, rfl⟩ := Option.map_eq_some_iff.1 hy
    refine ⟨id, hid, x, ih hx, ty, hty, old, hold, .int z, ?_, τ, Rules.write_within hτ, hr⟩
    rw [Arithmetic.eval_within hw hz]
    rfl

end Source

end PathFormula
