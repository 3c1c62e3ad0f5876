import PathFormula.Proofs.Connectives
import PathFormula.Proofs.Divisions
import PathFormula.Proofs.Footprints
import PathFormula.Proofs.Quotients

/-!
# Numbers that are not negative

Unsigned variables start in the range of their type and are forgotten within it. Sums, products and
quotients of numbers that are not negative are not negative, and neither is what is read from
unsigned variables and written back to them. So a model where nothing else brings a number below
zero into an unsigned type (`Underflows`) has none in the unsigned variables wherever its path leads
(`natural_encode`).
-/
namespace PathFormula

open Source

namespace Source

/-- Types whose numbers are not negative. -/
def Ty.isNatural : Ty → Bool
  | .integer ty => !ty.signed
  | .rational value => value.den = 1 ∧ 0 ≤ value.num
  | _ => false

theorem IntegerType.min_of_unsigned {ty : IntegerType} (h : ty.signed = false) : ty.min = 0 := by
  simp [IntegerType.min, h]

/-- Operations that lead from numbers that are not negative to such numbers. -/
def Arithmetic.IsNatural (op : Arithmetic) (right : Int) : Prop :=
  match op with
  | .add | .mul => True
  | .sub => False
  | .div => right ≠ 0

theorem Arithmetic.nonneg_term {op : Arithmetic} {ty : IntegerType} {m : Model} {a b : Term}
    (hs : ty.signed = false) (hop : op.IsNatural (b.value m).number)
    (ha : 0 ≤ (a.value m).number) (hb : 0 ≤ (b.value m).number) :
    0 ≤ ((op.term ty a b).value m).number := by
  cases op with
  | add => exact Int.add_nonneg ha hb
  | sub => exact hop.elim
  | mul => exact Int.mul_nonneg ha hb
  | div =>
    rw [Arithmetic.term, quotient, hs, if_neg Bool.false_ne_true, Term.value_div,
      Model.quotient_of_ne_zero _ _ hop]
    exact Int.ediv_nonneg ha hb

end Source

theorem Expr.hasTermSort_of_isNatural {e : Expr} (h : e.ty.isNatural = true) :
    e.hasTermSort = true := by
  unfold Expr.hasTermSort Expr.termSort
  cases ht : e.ty with
  | rational value =>
    rw [ht, Ty.isNatural, decide_eq_true_eq] at h
    simp only [if_pos h.1]
    rfl
  | integer ty => rfl
  | _ =>
    rw [ht] at h
    cases h

/-- The unsigned variables are not negative. -/
def Store.Natural (Γ : Nat → Option Domain) (σ : Store) : Prop :=
  ∀ id domain x, Γ id = some domain → domain.ty.isNatural = true → σ id = some x → 0 ≤ x.number

namespace Draft

/-- The number that the symbol of an expression has, or zero if it has no symbol. -/
def number (d : Draft) (m : Model) (e : Expr) : Int :=
  ((d.expression? e.id).map fun t => (t.value m).number).getD 0

end Draft

namespace Source.Expr

section

variable (Γ : Nat → Option Domain)

/-- Unsigned types are kept apart from the others. -/
def SignsAgree (e : Expr) : Prop :=
  match e with
  | .identifier node _ (some id) _ => ∀ domain ∈ Γ id, node.ty = domain.ty
  | .unary node .plus _ operand => node.ty.isNatural → operand.ty.isNatural
  | .unary node .increment _ operand | .unary node .decrement _ operand =>
      node.ty.isNatural ↔ operand.ty.isNatural
  | .binary node (.arithmetic _) left right common =>
      (node.ty.isNatural → common.isNatural) ∧
        (common.isNatural → left.ty.isNatural ∧ right.ty.isNatural)
  | .assignment node _ target value =>
      (node.ty.isNatural ↔ target.ty.isNatural) ∧ (target.ty.isNatural → value.ty.isNatural)
  | .tuple node [single] false => node.ty.isNatural → single.ty.isNatural
  | _ => True

variable (d : Draft) (m : Model)

/-- The value of a node is not negative where its parts and the unsigned variables are not. -/
def PassesOn (e : Expr) : Prop :=
  match e with
  | .identifier _ _ (some id) false => (Γ id).isSome
  | .unary _ .plus _ _ | .tuple _ [_] false => True
  | .unary _ .increment _ operand => ∃ id, operand.referenced? = some id ∧ (Γ id).isSome
  | .binary _ (.arithmetic op) _ right _ => op.IsNatural (d.number m right)
  | .assignment _ op target value =>
      (∃ id, target.referenced? = some id ∧ (Γ id).isSome) ∧
        ∀ aop, op = .arithmetic aop → aop.IsNatural (d.number m value)
  | _ => False

/-- The number a node leaves behind: what a step after its variable writes, or else its value. -/
def leftBehind (e : Expr) : Int :=
  match e with
  | .unary _ .decrement false _ => d.number m e - 1
  | _ => d.number m e

/-- A node brings a number below zero into an unsigned type. -/
def Underflows (e : Expr) : Prop :=
  e.ty.isNatural = true ∧ ¬ e.PassesOn Γ d m ∧ e.leftBehind d m < 0

/-- A node of a well-typed expression brings no number below zero in. -/
structure Harmless (e : Expr) : Prop where
  signs : e.SignsAgree Γ
  value : ¬ e.Underflows Γ d m

end

end Source.Expr

namespace Draft

variable {Γ : Nat → Option Domain} {D d d₁ d' : Draft} {m : Model} {u : Unit} {e x : Expr}
  {t : Term} {id : Nat} {v : Registered} {location : Location}

/-- A draft with the variables of a function, read in one of its models. -/
structure Reading (Γ : Nat → Option Domain) (D : Draft) (m : Model) : Prop where
  distinct : (D.registry.map (·.id)).Nodup
  declares : ∀ id, (D.registered? id).map (·.domain) = Γ id
  holds : D.HoldsIn m

theorem Reading.nodup (hR : Reading Γ D m) (hl : Later d D) : (d.registry.map (·.id)).Nodup :=
  hl.ids ▸ hR.distinct

theorem Reading.domain (hR : Reading Γ D m) (hl : Later d D) (hv : d.registered? id = some v) :
    Γ id = some v.domain := by
  obtain ⟨k, hk⟩ := hl.version hv
  rw [← hR.declares id, hk]
  rfl

theorem Reading.unregistered (hR : Reading Γ D m) (hl : Later d D)
    (hv : d.registered? id = none) : Γ id = none := by
  obtain ⟨k, hk⟩ := hl.registered id
  rw [← hR.declares id, hk, hv]
  rfl

theorem Reading.exists_registered? (hR : Reading Γ D m) (hl : Later d D) {domain : Domain}
    (hd : Γ id = some domain) : ∃ v, d.registered? id = some v ∧ v.domain = domain := by
  rw [← hR.declares id] at hd
  obtain ⟨w, hw, rfl⟩ := Option.map_eq_some_iff.1 hd
  obtain ⟨v, k, hv, rfl⟩ := hl.earlier hw
  exact ⟨v, hv, rfl⟩

theorem number_of_expression? (hl : Later d D) (ht : d.expression? e.id = some t) :
    D.number m e = (t.value m).number := by
  rw [number, hl.expression? ht]
  rfl

theorem number_valueOf (h : Yields (valueOf e) d t d') (hl : Later d' D) :
    D.number m e = (t.value m).number :=
  number_of_expression? hl (expression?_valueOf h)

/-- Where the path is taken, a defined expression has the number that it was defined by. -/
theorem number_define (hR : Reading Γ D m) (h : Yields (define e t) d u d') (hl : Later d' D)
    (ho : d'.Open m) : D.number m e = (t.value m).number := by
  have hemits : Emits (fun _ => False) [] d d' := emits_define h
  obtain ⟨s, hs, hv⟩ := value_define h (hl.holdsIn hR.holds) (hemits.open_iff.1 ho)
  rw [number_of_expression? hl hs, hv]

theorem Emits.store {xs : List Demand} (h : Emits (fun _ => False) xs d d') (m : Model) :
    d'.store m = d.store m :=
  funext fun _ => h.store_eq id m

theorem natural_assign (hR : Reading Γ D m) (hl : Later d' D) (ho : d.Open m)
    (hn : Store.Natural Γ (d.store m))
    (ht : ∀ domain, Γ id = some domain → domain.ty.isNatural = true → 0 ≤ (t.value m).number)
    (h : Yields (assign id t location) d u d') : Store.Natural Γ (d'.store m) := by
  cases hv : d.registered? id with
  | none =>
    obtain ⟨-, ⟨-, rfl⟩ | ⟨v, hv', -⟩⟩ := yields_assign.1 h
    · exact hn
    · rw [hv] at hv'
      cases hv'
  | some v =>
    rw [store_assign h hv (hl.holdsIn hR.holds) ho]
    intro other domain x hd hnat hx
    by_cases hid : other = id
    · subst hid
      rw [Function.update_self] at hx
      exact Option.some.inj hx ▸ ht domain hd hnat
    · rw [Function.update_of_ne hid] at hx
      exact hn other domain x hd hnat hx

/-! ### Operations -/

section Operations

variable {node : Node}

/-- What brings nothing below zero in leaves nothing below zero behind, unless it passes on what
its parts have. -/
theorem leftBehind_nonneg (hu : ¬ e.Underflows Γ D m) (hp : ¬ e.PassesOn Γ D m)
    (hnat : e.ty.isNatural = true) : 0 ≤ e.leftBehind D m :=
  Int.not_lt.1 fun h => hu ⟨hnat, hp, h⟩

theorem number_nonneg (hu : ¬ e.Underflows Γ D m) (hp : ¬ e.PassesOn Γ D m)
    (hnat : e.ty.isNatural = true) : 0 ≤ D.number m e := by
  have h := leftBehind_nonneg hu hp hnat
  unfold Expr.leftBehind at h
  split at h <;> omega

/-- What an operation does: the unsigned variables stay natural, and so is its value. -/
def StaysNatural (Γ : Nat → Option Domain) (D : Draft) (m : Model) (e : Expr) (d' : Draft) : Prop :=
  Store.Natural Γ (d'.store m) ∧ (e.ty.isNatural = true → 0 ≤ D.number m e)

/-- An operation that writes nothing and is no source of its parts' values. -/
theorem staysNatural_of_emits {xs : List Demand} (hn : Store.Natural Γ (d.store m))
    (hu : ¬ e.Underflows Γ D m) (hp : ¬ e.PassesOn Γ D m)
    (h : Emits (fun _ => False) xs d d') : StaysNatural Γ D m e d' :=
  ⟨h.store m ▸ hn, number_nonneg hu hp⟩

theorem staysNatural_identifier {name : String} {declaration : Option Nat} {isTarget : Bool}
    (hR : Reading Γ D m) (hl : Later d' D) (ho : d.Open m)
    (he : (Expr.identifier node name declaration isTarget).Harmless Γ D m)
    (hn : Store.Natural Γ (d.store m))
    (h : Yields (Expr.identifier node name declaration isTarget).operate d u d') :
    StaysNatural Γ D m (.identifier node name declaration isTarget) d' := by
  have hemits : Emits (fun _ => False) [] d d' := emits_identifier h
  by_cases hp : (Expr.identifier node name declaration isTarget).PassesOn Γ D m
  · obtain _ | id := declaration
    · exact hp.elim
    cases isTarget with
    | true => exact hp.elim
    | false =>
      obtain ⟨domain, hd⟩ := Option.isSome_iff_exists.1 hp
      have hty : node.ty = domain.ty := he.signs domain hd
      obtain ⟨v, hv, rfl⟩ := hR.exists_registered? (hemits.later.trans hl) hd
      refine ⟨hemits.store m ▸ hn, fun hnat => ?_⟩
      rw [number_define hR ((yields_identifier hty hv).1 h) hl (hemits.open_iff.2 ho)]
      exact hn id v.domain _ hd (hty ▸ hnat) (store_eq_some hv m)
  · exact staysNatural_of_emits hn he.value hp hemits

theorem exists_identifier_of_referenced? {operand : Expr} (h : operand.referenced? = some id) :
    ∃ m name isTarget, operand = .identifier m name (some id) isTarget := by
  cases operand with
  | identifier m name declaration isTarget =>
    obtain rfl : declaration = some id := h
    exact ⟨m, name, isTarget, rfl⟩
  | _ => cases h

/-- What a step writes to an unsigned variable. -/
theorem stepped_nonneg {isUp isBefore : Bool} {operand : Expr} {op : UnaryOp}
    (hop : op = if isUp then .increment else .decrement)
    (he : (Expr.unary node op isBefore operand).Harmless Γ D m)
    (hnat : operand.ty.isNatural = true) (hc : 0 ≤ (v.current.value m).number)
    (hnum : D.number m (.unary node op isBefore operand) =
      ((if isBefore then stepped isUp v.current else v.current).value m).number) :
    0 ≤ ((stepped isUp v.current).value m).number := by
  cases isUp with
  | true =>
    obtain rfl : op = .increment := hop
    exact Int.add_nonneg hc (by simp)
  | false =>
    obtain rfl : op = .decrement := hop
    have hleft := leftBehind_nonneg he.value id (he.signs.2 hnat)
    cases isBefore with
    | true =>
      change 0 ≤ D.number m _ at hleft
      rwa [hnum] at hleft
    | false =>
      change 0 ≤ D.number m _ - 1 at hleft
      rw [hnum] at hleft
      simpa [stepped, Term.value, Dyadic.value] using hleft

theorem staysNatural_step (isUp : Bool) {isBefore : Bool} {operand : Expr} {op : UnaryOp}
    (hR : Reading Γ D m) (hl : Later d' D) (ho : d.Open m)
    (hop : op = if isUp then .increment else .decrement)
    (he : (Expr.unary node op isBefore operand).Harmless Γ D m)
    (hx : operand.SignsAgree Γ) (hn : Store.Natural Γ (d.store m))
    (h : Yields (step (.unary node op isBefore operand) isUp isBefore operand) d u d') :
    StaysNatural Γ D m (.unary node op isBefore operand) d' := by
  have hsigns : node.ty.isNatural = true ↔ operand.ty.isNatural = true := by
    cases isUp <;> subst hop <;> exact he.signs
  by_cases hknown : ∃ id, operand.referenced? = some id ∧ (Γ id).isSome
  · obtain ⟨id, href, hid⟩ := hknown
    obtain ⟨domain, hd⟩ := Option.isSome_iff_exists.1 hid
    obtain ⟨n, name, isTarget, rfl⟩ := exists_identifier_of_referenced? href
    have hdd : Continues d d' := (emits_step (fun _ _ => trivial) h).toContinues
    obtain ⟨v, hv, rfl⟩ := hR.exists_registered? (hdd.later.trans hl) hd
    have hty : (Expr.identifier n name (some id) isTarget).ty = v.domain.ty := hx v.domain hd
    obtain ⟨-, d₁, ha, hdef⟩ := (yields_step_identifier hv).1 h
    have hl₁ : Later d₁ D := (later_define hdef).trans hl
    have hnum := number_define hR hdef hl (hdd.open_iff.2 ho)
    have hcurrent : v.domain.ty.isNatural = true → 0 ≤ (v.current.value m).number :=
      fun hnat => hn id v.domain _ hd hnat (store_eq_some hv m)
    have hnew : v.domain.ty.isNatural = true → 0 ≤ ((stepped isUp v.current).value m).number :=
      fun hnat => stepped_nonneg hop he (hty ▸ hnat) (hcurrent hnat) hnum
    have hstore : d'.store m = d₁.store m := by
      have hemits : Emits (fun _ => False) [] d₁ d' := emits_define hdef
      exact hemits.store m
    refine ⟨hstore ▸ natural_assign hR hl₁ ho hn (fun domain hd' hnat => ?_) ha, fun hnat => ?_⟩
    · rw [hd] at hd'
      exact hnew (Option.some.inj hd' ▸ hnat)
    · have hnat' : v.domain.ty.isNatural = true := hty ▸ hsigns.1 hnat
      rw [hnum]
      cases isBefore
      · exact hcurrent hnat'
      · exact hnew hnat'
  · have hp : ¬ (Expr.unary node op isBefore operand).PassesOn Γ D m := by
      cases isUp <;> subst hop
      · exact id
      · exact hknown
    obtain ⟨-, ⟨notice, rfl⟩ | ⟨n, name, id, isTarget, v, rfl, hv, d₁, ha, hdef⟩⟩ := yields_step h
    · exact staysNatural_of_emits hn he.value hp .warned
    · have hl₀ : Later d D := (later_assign ha).trans ((later_define hdef).trans hl)
      exact absurd ⟨id, rfl, by rw [hR.domain hl₀ hv]; rfl⟩ hknown

theorem staysNatural_unary {op : UnaryOp} {isBefore : Bool} {operand : Expr}
    (hR : Reading Γ D m) (hl : Later d' D) (ho : d.Open m)
    (he : (Expr.unary node op isBefore operand).Harmless Γ D m)
    (hx : operand.Harmless Γ D m) (hv : operand.ty.isNatural = true → 0 ≤ D.number m operand)
    (hn : Store.Natural Γ (d.store m))
    (h : Yields (Expr.unary node op isBefore operand).operate d u d') :
    StaysNatural Γ D m (.unary node op isBefore operand) d' := by
  cases op with
  | not =>
    obtain ⟨-, t, d₁, hval, h⟩ := yields_not.1 h
    exact staysNatural_of_emits hn he.value id ((emits_valueOf hval).after (emits_define h))
  | increment => exact staysNatural_step true hR hl ho rfl he hx.signs hn h
  | decrement => exact staysNatural_step false hR hl ho rfl he hx.signs hn h
  | plus =>
    obtain ⟨t, d₁, hval, hdef⟩ := yields_bind.1 h
    have hemits : Emits (fun _ => False) [] d d' := (emits_valueOf hval).after (emits_define hdef)
    have hl₁ : Later d₁ D := (later_define hdef).trans hl
    refine ⟨hemits.store m ▸ hn, fun hnat => ?_⟩
    rw [number_define hR hdef hl (hemits.open_iff.2 ho), ← number_valueOf hval hl₁]
    exact hv (he.signs hnat)
  | minus =>
    obtain ⟨t, d₁, hval, h⟩ := yields_bind.1 h
    exact staysNatural_of_emits hn he.value id ((emits_valueOf hval).after (emits_define h))
  | bitNot | delete =>
    obtain rfl := yields_warn.1 h
    exact staysNatural_of_emits hn he.value id .warned

theorem staysNatural_binary {op : BinaryOp} {left right : Expr} {common : Ty}
    (hR : Reading Γ D m) (hl : Later d' D) (ho : d.Open m)
    (he : (Expr.binary node op left right common).Harmless Γ D m)
    (hleft : left.ty.isNatural = true → 0 ≤ D.number m left)
    (hright : right.ty.isNatural = true → 0 ≤ D.number m right)
    (hn : Store.Natural Γ (d.store m))
    (h : Yields (Expr.binary node op left right common).operate d u d') :
    StaysNatural Γ D m (.binary node op left right common) d' := by
  have hemits : Emits (fun _ => False) _ d d' := emits_binary h
  by_cases hp : (Expr.binary node op left right common).PassesOn Γ D m
  · cases op with
    | arithmetic op =>
      obtain ⟨ty, l, d₁, r, d₂, t, d₃, hty, hl₁, hr₁, ha, hdef⟩ := yields_binaryArithmetic.1 h
      obtain ⟨sort, rfl, -⟩ := yields_valueOf.1 hr₁
      have harith : Emits (fun _ => False) _ d₂ d₃ := emits_arithmetic ha
      have hl₂ : Later d₂ D := harith.later.trans ((later_define hdef).trans hl)
      have hnumL := number_valueOf (m := m) hl₁ ((continues_valueOf hr₁).later.trans hl₂)
      have hnumR := number_valueOf (m := m) hr₁ hl₂
      refine ⟨hemits.store m ▸ hn, fun hnat => ?_⟩
      have hcommon := he.signs.1 hnat
      have hparts := he.signs.2 hcommon
      have hsigned : ty.signed = false := by
        cases common <;> cases hty
        simpa [Ty.isNatural] using hcommon
      obtain ⟨rfl, -⟩ := yields_arithmetic.1 ha
      rw [number_define hR hdef hl (hemits.open_iff.2 ho)]
      exact Arithmetic.nonneg_term hsigned (hnumR ▸ hp) (hnumL ▸ hleft hparts.1)
        (hnumR ▸ hright hparts.2)
    | _ => exact hp.elim
  · exact staysNatural_of_emits hn he.value hp hemits

/-- What an assignment that passes its operands on assigns to an unsigned variable. -/
theorem assignedValue_nonneg {n : Node} {name : String} {isTarget : Bool} {op : AssignOp} {r : Term}
    (hn : Store.Natural Γ (d.store m))
    (hop : ∀ aop, op = .arithmetic aop → aop.IsNatural (t.value m).number) {domain : Domain}
    (hd : Γ id = some domain) (hty : n.ty = domain.ty) (hnat : domain.ty.isNatural = true)
    (ht : 0 ≤ (t.value m).number)
    (h : Yields (assignedValue e (.identifier n name (some id) isTarget) op id t) d (some r) d') :
    0 ≤ (r.value m).number := by
  obtain ⟨-, hr, -⟩ | ⟨aop, ty, rfl, hint, ⟨-, hr, -⟩ | ⟨v, s, hv, hr, ha⟩⟩ :=
    yields_assignedValue.1 h
  · cases hr
    exact ht
  · cases hr
  · cases hr
    obtain ⟨rfl, -⟩ := yields_arithmetic.1 ha
    have hsigned : ty.signed = false := by
      have hint' : n.ty.integer? = some ty := hint
      rw [hty] at hint'
      cases domain <;> cases hint'
      simpa [Domain.ty, Ty.isNatural] using hnat
    exact Arithmetic.nonneg_term hsigned (hop aop rfl)
      (hn id domain _ hd hnat (store_eq_some hv m)) ht

theorem staysNatural_assignment {op : AssignOp} {target value : Expr}
    (hR : Reading Γ D m) (hl : Later d' D) (ho : d.Open m)
    (he : (Expr.assignment node op target value).Harmless Γ D m)
    (ht : target.SignsAgree Γ) (hv : value.ty.isNatural = true → 0 ≤ D.number m value)
    (hn : Store.Natural Γ (d.store m))
    (h : Yields (Expr.assignment node op target value).operate d u d') :
    StaysNatural Γ D m (.assignment node op target value) d' := by
  obtain ⟨n, name, id, isTarget, rfl⟩ := exists_of_yields_assignment h
  have hemits : Continues d d' := continues_operate h
  have hunknown : Γ id = none → ¬ (Expr.assignment node op
      (.identifier n name (some id) isTarget) value).PassesOn Γ D m := by
    rintro hnone ⟨⟨_, href, hsome⟩, -⟩
    cases href
    rw [hnone] at hsome
    cases hsome
  obtain ⟨⟨err, hty⟩, rfl⟩ | ⟨-, x, d₁, r, d₂, hval, hr, h⟩ := yields_assignment.1 h
  · refine staysNatural_of_emits hn he.value (hunknown ?_) .warned
    cases hd : Γ id with
    | none => rfl
    | some domain =>
      have hn : n.ty = domain.ty := ht domain hd
      simp [hn] at hty
  · obtain ⟨sort, rfl, -⟩ := yields_valueOf.1 hval
    have hvalue : Emits (fun _ => False) [] d d₁ := emits_valueOf hval
    have hassigned : Emits (fun _ => False) _ d₁ d₂ := emits_assignedValue hr
    obtain ⟨rfl, rfl⟩ | ⟨t, d₃, rfl, ha, hdef⟩ := h
    · -- only the value of an unknown variable is missing
      refine staysNatural_of_emits hn he.value (hunknown ?_) (hvalue.trans hassigned)
      obtain ⟨-, hnone, -⟩ | ⟨aop, ty, -, -, ⟨hnone, -⟩ | ⟨v, s, -, hnone, -⟩⟩ :=
        yields_assignedValue.1 hr
      · cases hnone
      · exact hR.unregistered (hassigned.later.trans hl) hnone
      · cases hnone
    · have hl₃ : Later d₃ D := (later_define hdef).trans hl
      have hl₁ : Later d₁ D := hassigned.later.trans ((later_assign ha).trans hl₃)
      have hnum := number_define hR hdef hl (hemits.open_iff.2 ho)
      have hnum' := number_valueOf (m := m) hval hl₁
      have hnew : ∀ domain, Γ id = some domain → domain.ty.isNatural = true →
          0 ≤ (t.value m).number := by
        intro domain hd hnat
        have hty : n.ty = domain.ty := ht domain hd
        have htarget : n.ty.isNatural = true := hty ▸ hnat
        by_cases hp : (Expr.assignment node op
          (.identifier n name (some id) isTarget) value).PassesOn Γ D m
        · exact assignedValue_nonneg (hvalue.store m ▸ hn) (hnum' ▸ hp.2) hd hty hnat
            (hnum' ▸ hv (he.signs.2 htarget)) hr
        · exact hnum ▸ number_nonneg he.value hp (he.signs.1.2 htarget)
      have hstore : Store.Natural Γ (d₃.store m) :=
        natural_assign hR hl₃ ((hvalue.trans hassigned).open_iff.2 ho)
          ((hvalue.trans hassigned).store m ▸ hn) hnew ha
      have hdefined : Emits (fun _ => False) [] d₃ d' := emits_define hdef
      refine ⟨hdefined.store m ▸ hstore, fun hnat => ?_⟩
      cases hd : Γ id with
      | none => exact number_nonneg he.value (hunknown hd) hnat
      | some domain =>
        have hty : n.ty = domain.ty := ht domain hd
        exact hnum ▸ hnew domain hd (hty ▸ he.signs.1.1 hnat)

theorem staysNatural_tuple {components : List Expr} {isInlineArray : Bool}
    (hR : Reading Γ D m) (hl : Later d' D) (ho : d.Open m)
    (he : (Expr.tuple node components isInlineArray).Harmless Γ D m)
    (hv : ∀ x ∈ components, x.ty.isNatural = true → 0 ≤ D.number m x)
    (hn : Store.Natural Γ (d.store m))
    (h : Yields (Expr.tuple node components isInlineArray).operate d u d') :
    StaysNatural Γ D m (.tuple node components isInlineArray) d' := by
  have hemits : Emits (fun _ => False) [] d d' := emits_tuple h
  by_cases hp : ∃ single, components = [single] ∧ isInlineArray = false
  · obtain ⟨single, rfl, rfl⟩ := hp
    refine ⟨hemits.store m ▸ hn, fun hnat => ?_⟩
    have hdef : Yields (defineFrom (.tuple node [single] false) single) d u d' := by
      rwa [Expr.operate, Draft.tuple, if_pos (Expr.hasTermSort_of_isNatural hnat)] at h
    obtain ⟨t, d₁, hval, hdef⟩ := yields_bind.1 hdef
    rw [number_define hR hdef hl (hemits.open_iff.2 ho),
      ← number_valueOf hval ((later_define hdef).trans hl)]
    exact hv single (.head _) (he.signs hnat)
  · refine staysNatural_of_emits hn he.value (fun hpass => hp ?_) hemits
    obtain _ | ⟨single, _ | ⟨next, rest⟩⟩ := components
    · exact hpass.elim
    · cases isInlineArray
      · exact ⟨single, rfl, rfl⟩
      · exact hpass.elim
    · exact hpass.elim

/-- The operation of a node whose parts have numbers of their types. -/
theorem staysNatural_operate (hR : Reading Γ D m) (hl : Later d' D) (ho : d.Open m)
    (he : e.Harmless Γ D m) (hx : ∀ x ∈ e.visitedParts, x.Harmless Γ D m)
    (hv : ∀ x ∈ e.visitedParts, x.ty.isNatural = true → 0 ≤ D.number m x)
    (hn : Store.Natural Γ (d.store m)) (h : Yields e.operate d u d') :
    StaysNatural Γ D m e d' := by
  cases e with
  | literal node value => exact staysNatural_of_emits hn he.value id (emits_literal h)
  | identifier node name declaration isTarget => exact staysNatural_identifier hR hl ho he hn h
  | unary node op isBefore operand =>
    exact staysNatural_unary hR hl ho he (hx operand (.head _)) (hv operand (.head _)) hn h
  | binary node op left right common =>
    exact staysNatural_binary hR hl ho he (hv left (.head _)) (hv right (.tail _ (.head _))) hn h
  | assignment node op target value =>
    exact staysNatural_assignment hR hl ho he (hx target (.tail _ (.head _))).signs
      (hv value (.head _)) hn h
  | tuple node components isInlineArray => exact staysNatural_tuple hR hl ho he hv hn h
  | call node callee arguments =>
    rw [Expr.operate] at h
    split at h
    · cases arguments with
      | nil =>
        obtain rfl := yields_warn.1 h
        exact staysNatural_of_emits hn he.value id .warned
      | cons condition rest => exact staysNatural_of_emits hn he.value id (emits_assume h)
    · exact staysNatural_of_emits hn he.value id (.after .warned (emits_leaveOpen h))
  | index node base position =>
    exact staysNatural_of_emits hn he.value id (.after .warned (emits_leaveOpen h))
  | member node base name =>
    exact staysNatural_of_emits hn he.value id (.after .warned (emits_leaveOpen h))

end Operations

end Draft

/-! ### Expressions -/

namespace Draft

variable {Γ : Nat → Option Domain} {D d d' : Draft} {m : Model} {e x : Expr} {es : List Expr}

/-- Encoding an expression without a source of numbers below zero. -/
def KeepsNatural (Γ : Nat → Option Domain) (D : Draft) (m : Model) (e : Expr) : Prop :=
  ∀ ⦃d d' : Draft⦄, Yields e.encode d () d' → Later d' D → d.Open m →
    (∀ x, e.Visits x → x.Harmless Γ D m) → Store.Natural Γ (d.store m) → StaysNatural Γ D m e d'

theorem natural_encodeAll (hk : ∀ x ∈ es, KeepsNatural Γ D m x)
    (hs : ∀ a ∈ es, ∀ x, a.Visits x → x.Harmless Γ D m) (hl : Later d' D) (ho : d.Open m)
    (hn : Store.Natural Γ (d.store m)) (h : Yields (Expr.encodeAll es) d () d') :
    Store.Natural Γ (d'.store m) ∧ ∀ x ∈ es, x.ty.isNatural = true → 0 ≤ D.number m x := by
  induction es generalizing d with
  | nil =>
    obtain ⟨-, rfl⟩ := yields_pure.1 h
    exact ⟨hn, by simp⟩
  | cons a rest ih =>
    simp only [List.mem_cons, forall_eq_or_imp] at hk hs ⊢
    obtain ⟨d₁, ha, hr⟩ := yields_seq.1 h
    have hl₁ : Later d₁ D := (Expr.emits_encodeAll rest hr).later.trans hl
    obtain ⟨hn₁, hv⟩ := hk.1 ha hl₁ ho hs.1 hn
    obtain ⟨hn', hvs⟩ := ih hk.2 hs.2 ((continues_encode ha).open_iff.2 ho) hn₁ hr
    exact ⟨hn', hv, hvs⟩

/-- Where nothing in an expression brings a number below zero in, none is in the unsigned variables
after the expression, and none is its value. -/
theorem natural_encode (hR : Reading Γ D m) (e : Expr) : KeepsNatural Γ D m e := by
  induction e using Expr.visitedParts_induction with
  | h e ih =>
    intro d d' h hl ho hs hn
    rw [Expr.encode_eq] at h
    obtain ⟨d₁, hparts, hop⟩ := yields_seq.1 h
    have hinner : ∀ a ∈ e.visitedParts, ∀ x, a.Visits x → x.Harmless Γ D m :=
      fun a ha x hx => hs x (.head ha hx)
    obtain ⟨hn₁, hv⟩ := natural_encodeAll ih hinner ((continues_operate hop).later.trans hl) ho hn
      hparts
    exact staysNatural_operate hR hl ((Expr.emits_encodeAll _ hparts).open_iff.2 ho) (hs e .refl)
      (fun x hx => hinner x hx x .refl) hv hn₁ hop

/-! ### Operations inside expressions -/

/-- Encoding an expression from the first draft performs an operation from the second. -/
inductive Performs : Expr → Draft → Expr → Draft → Prop where
  | self {e : Expr} {d d₁ : Draft} (h : Yields (Expr.encodeAll e.visitedParts) d () d₁) :
      Performs e d e d₁
  | part {e a x : Expr} {before after : List Expr} {d d₁ c : Draft}
      (hs : e.visitedParts = before ++ a :: after) (h : Yields (Expr.encodeAll before) d () d₁)
      (hp : Performs a d₁ x c) : Performs e d x c

theorem yields_encodeAll_append {es more : List Expr}
    (h : Yields (Expr.encodeAll (es ++ more)) d () d') :
    ∃ d₁, Yields (Expr.encodeAll es) d () d₁ ∧ Yields (Expr.encodeAll more) d₁ () d' := by
  induction es generalizing d with
  | nil => exact ⟨d, yields_pure.2 ⟨rfl, rfl⟩, h⟩
  | cons a rest ih =>
    obtain ⟨d₁, ha, hr⟩ := yields_seq.1 h
    obtain ⟨d₂, h₁, h₂⟩ := ih hr
    exact ⟨d₂, yields_seq.2 ⟨d₁, ha, h₁⟩, h₂⟩

theorem Performs.continues {c : Draft} (hp : Performs e d x c) : Continues d c := by
  induction hp with
  | self h => exact (Expr.emits_encodeAll _ h).toContinues
  | part _ h _ ih => exact (Expr.emits_encodeAll _ h).toContinues.trans ih

/-- All that is visited in an expression is performed where the expression is encoded. -/
theorem exists_performs (hx : e.Visits x) (h : Yields e.encode d () d') :
    ∃ c c', Performs e d x c ∧ Yields x.operate c () c' ∧ Later c' d' := by
  induction hx using Relation.ReflTransGen.head_induction_on generalizing d d' with
  | refl =>
    rw [Expr.encode_eq] at h
    obtain ⟨d₁, hparts, hop⟩ := yields_seq.1 h
    exact ⟨d₁, d', .self hparts, hop, .refl d'⟩
  | head ha _ ih =>
    rw [Expr.encode_eq] at h
    obtain ⟨d₁, hparts, hop⟩ := yields_seq.1 h
    obtain ⟨before, after, hs⟩ := List.append_of_mem ha
    rw [hs] at hparts
    obtain ⟨d₂, hbefore, hparts⟩ := yields_encodeAll_append hparts
    obtain ⟨d₃, hy, hafter⟩ := yields_seq.1 hparts
    obtain ⟨c, c', hp, ho, hl⟩ := ih hy
    exact ⟨c, c', .part hs hbefore hp, ho, hl.trans ((Expr.emits_encodeAll _ hafter).later.trans
      (continues_operate hop).later)⟩

theorem natural_performs {c : Draft} (hp : Performs e d x c) (hR : Reading Γ D m) (hl : Later c D)
    (ho : d.Open m) (hs : ∀ a, e.Visits a → a.Harmless Γ D m)
    (hn : Store.Natural Γ (d.store m)) :
    Store.Natural Γ (c.store m) ∧
      ∀ a ∈ x.visitedParts, a.ty.isNatural = true → 0 ≤ D.number m a := by
  induction hp with
  | self h =>
    exact natural_encodeAll (fun _ _ => natural_encode hR _) (fun a ha x hx => hs x (.head ha hx))
      hl ho hn h
  | part he h hp ih =>
    have hbefore := (Expr.emits_encodeAll _ h).toContinues
    have hmem : ∀ a ∈ _, a ∈ _ := fun a ha => he ▸ List.mem_append_left _ ha
    obtain ⟨hn₁, -⟩ := natural_encodeAll (fun _ _ => natural_encode hR _)
      (fun a ha x hx => hs x (.head (hmem a ha) hx)) (hp.continues.later.trans hl) ho hn h
    exact ih hl (hbefore.open_iff.2 ho)
      (fun a ha => hs a (.head (he ▸ List.mem_append_right _ (.head _)) ha)) hn₁

end Draft

end PathFormula
