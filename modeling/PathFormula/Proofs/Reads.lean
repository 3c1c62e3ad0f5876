import PathFormula.Proofs.Continuation
import PathFormula.Proofs.Mentions

/-!
# Reads

An operation reads a variable at the version that it is at. So an expression that is encoded in a
draft which is ahead of some version of a variable (`Outruns`) states nothing about that version
(`Expr.leaves_encode`).
-/
namespace PathFormula

open Source

/-- The symbol is no version of the variable up to the current one. -/
def Registered.Precedes (v : Registered) (s : Symbol) : Prop := ∀ k ≤ v.version, s ≠ v.symbol k

namespace Draft

variable {d d₁ d' : Draft} {e : Expr} {u : Unit} {id : Nat} {v w : Registered} {t : Term}
  {location : Location}

/-- The draft has a newer version of the variable. -/
def Outruns (d : Draft) (v : Registered) : Prop :=
  ∃ n, d.registered? v.id = some (v.later (n + 1))

theorem Outruns.later (h : d.Outruns v) (hl : Later d d') : d'.Outruns v := by
  obtain ⟨n, hn⟩ := h
  obtain ⟨k, hk⟩ := hl.version hn
  exact ⟨n + k, by rw [hk, Registered.later_later, Nat.add_right_comm]⟩

/-- What is ahead of a later version is ahead of the version before. -/
theorem Outruns.of_later {k : Nat} (h : d.Outruns (v.later k)) : d.Outruns v := by
  obtain ⟨n, hn⟩ := h
  exact ⟨k + n, by rw [← Registered.later_id, hn, Registered.later_later, Nat.add_assoc]⟩

theorem precedes_expression (v : Registered) (id : Nat) (sort : TermSort) :
    v.Precedes (expressionSymbol id sort) := by
  intro k _ hs
  have hname : (expressionSymbol id sort).name = (v.symbol k).name := congrArg Symbol.name hs
  exact name_ne_expressionName v.toVariable k id hname.symm

/-- The versions that a draft ahead has or reaches. -/
theorem Outruns.precedes (h : d.Outruns v) (hw : d.registered? id = some w) {k : Nat}
    (hk : w.version ≤ k) : v.Precedes (w.symbol k) := by
  intro n hn hs
  obtain ⟨-, hid, rfl⟩ := Variable.name_injective (congrArg Symbol.name hs)
  obtain ⟨m, hm⟩ := h
  rw [← id_of_registered? hw, hid, hm] at hw
  cases hw
  rw [Registered.later_version] at hk
  omega

theorem Outruns.within_current (h : d.Outruns v) (hw : d.registered? id = some w) :
    w.current.Within v.Precedes :=
  Term.within_symbol.2 (h.precedes hw (Nat.le_refl _))

/-- Between two drafts nothing is stated about the versions of a variable that were left. -/
def Leaves (v : Registered) (d d' : Draft) : Prop :=
  ∃ new, d'.constraints = d.constraints ++ new ∧ ∀ c ∈ new, c.fact.Within v.Precedes

namespace Leaves

theorem of_constraints (h : d'.constraints = d.constraints) : Leaves v d d' :=
  ⟨[], by rw [h, List.append_nil], by simp⟩

theorem refl (d : Draft) : Leaves v d d := of_constraints rfl

theorem trans (h : Leaves v d d₁) (h' : Leaves v d₁ d') : Leaves v d d' := by
  obtain ⟨new, he, hn⟩ := h
  obtain ⟨more, he', hm⟩ := h'
  exact ⟨new ++ more, by rw [he', he, List.append_assoc], List.forall_mem_append.2 ⟨hn, hm⟩⟩

theorem warned {notice : Notice} : Leaves v d (d.warned location notice) := of_constraints rfl

theorem emitted (ht : t.Within v.Precedes) : Leaves v d (d.emitted t location) :=
  ⟨_, rfl, List.forall_mem_singleton.2 ht⟩

end Leaves

/-! ### Operations -/

theorem leaves_valueOf (h : Yields (valueOf e) d t d') :
    t.Within v.Precedes ∧ Leaves v d d' := by
  obtain ⟨sort, rfl, ⟨-, rfl⟩ | ⟨-, -, -, -, rfl⟩⟩ := yields_valueOf.1 h
  · exact ⟨Term.within_symbol.2 (precedes_expression v _ _), .refl _⟩
  · exact ⟨Term.within_symbol.2 (precedes_expression v _ _), .of_constraints rfl⟩

theorem leaves_define (ht : t.Within v.Precedes) (h : Yields (define e t) d u d') :
    Leaves v d d' := by
  obtain ⟨-, sort, hd⟩ := yields_define.1 h
  have hfact : (Term.eq (.symbol (expressionSymbol e.id sort)) t).Within v.Precedes :=
    Term.within_dyadic.2 ⟨Term.within_symbol.2 (precedes_expression v _ _), ht⟩
  obtain ⟨-, rfl⟩ | ⟨-, -, rfl⟩ := hd
  · exact .emitted hfact
  · exact ⟨_, rfl, List.forall_mem_singleton.2 hfact⟩

theorem leaves_create (h : Yields (create e) d u d') : Leaves v d d' := by
  obtain ⟨-, ⟨-, rfl⟩ | ⟨-, sort, -, rfl⟩⟩ := yields_create.1 h
  · exact .warned
  · exact .of_constraints rfl

theorem leaves_leaveOpen (h : Yields (leaveOpen e) d u d') : Leaves v d d' := by
  unfold leaveOpen at h
  split at h
  · exact leaves_create h
  · obtain ⟨-, rfl⟩ := yields_pure.1 h
    exact .refl _

theorem leaves_defineFrom {x : Expr} (h : Yields (defineFrom e x) d u d') : Leaves v d d' := by
  obtain ⟨t, d₁, hv, h⟩ := yields_bind.1 h
  obtain ⟨ht, hl⟩ := leaves_valueOf hv
  exact hl.trans (leaves_define ht h)

theorem leaves_assign (ho : d.Outruns v) (ht : t.Within v.Precedes)
    (h : Yields (assign id t location) d u d') : Leaves v d d' := by
  obtain ⟨-, ⟨-, rfl⟩ | ⟨w, hw, rfl⟩⟩ := yields_assign.1 h
  · exact .warned
  · have hnew : (w.term (w.version + 1)).Within v.Precedes :=
      Term.within_symbol.2 (ho.precedes hw (Nat.le_succ _))
    exact ⟨_, rfl, List.forall_mem_singleton.2 (Term.within_dyadic.2 ⟨hnew, ht⟩)⟩

theorem leaves_arithmetic {op : Arithmetic} {ty : IntegerType} {a b : Term}
    (ha : a.Within v.Precedes) (hb : b.Within v.Precedes)
    (h : Yields (arithmetic op ty a b location) d t d') :
    t.Within v.Precedes ∧ Continues d d' ∧ Leaves v d d' := by
  obtain ⟨rfl, rfl⟩ := yields_arithmetic.1 h
  refine ⟨Term.within_arithmetic op ty ha hb, ?_⟩
  split
  · exact ⟨⟨.emitted, rfl⟩, .emitted (Term.within_comparison .ne hb Term.within_ofInt)⟩
  · exact ⟨.refl d, .refl d⟩

/-! ### Nodes -/

theorem leaves_literal {value : Literal} (h : Yields (literal e value) d u d') :
    Leaves v d d' := by
  unfold literal at h
  split at h
  · exact leaves_define Term.within_ofBool h
  · split at h
    · exact leaves_define Term.within_ofInt h
    · exact leaves_create h
  · split at h
    · exact leaves_define Term.within_ofInt h
    · exact leaves_create h
  · obtain rfl := yields_warn.1 h
    exact .warned

theorem leaves_defineFromVariable (ho : d.Outruns v) (h : Yields (defineFromVariable e id) d u d') :
    Leaves v d d' := by
  unfold defineFromVariable at h
  rw [yields_get_bind] at h
  cases hw : d.registered? id with
  | none =>
    simp only [current?, hw, Option.map_none] at h
    split at h
    · exact yields_warn.1 h ▸ .warned
    · exact yields_warn.1 h ▸ .warned
  | some w =>
    simp only [current?, hw, Option.map_some] at h
    exact leaves_define (ho.within_current hw) h

theorem leaves_identifier {name : String} {declaration : Option Nat} {isTarget : Bool}
    (ho : d.Outruns v) (h : Yields (identifier e name declaration isTarget) d u d') :
    Leaves v d d' := by
  unfold identifier at h
  split at h
  · obtain ⟨-, rfl⟩ := yields_pure.1 h
    exact .refl _
  · obtain ⟨-, rfl⟩ := yields_pure.1 h
    exact .refl _
  · split at h
    · exact leaves_defineFromVariable ho h
    · obtain rfl := yields_warn.1 h
      exact .warned

theorem leaves_tuple {components : List Expr} {isInlineArray : Bool}
    (h : Yields (tuple e components isInlineArray) d u d') : Leaves v d d' := by
  unfold tuple at h
  split at h
  · split at h
    · exact leaves_defineFrom h
    · obtain ⟨-, rfl⟩ := yields_pure.1 h
      exact .refl _
  · obtain rfl := yields_warn.1 h
    exact .warned

theorem leaves_step {isUp isBefore : Bool} {operand : Expr} (ho : d.Outruns v)
    (h : Yields (step e isUp isBefore operand) d u d') : Leaves v d d' := by
  obtain ⟨-, ⟨notice, rfl⟩ | ⟨m, name, id, isTarget, w, rfl, hw, d₁, ha, h⟩⟩ := yields_step h
  · exact .warned
  have hold := ho.within_current hw
  have hnew := Term.within_stepped isUp hold
  refine (leaves_assign ho hnew ha).trans (leaves_define ?_ h)
  split
  · exact hnew
  · exact hold

theorem leaves_unary {node : Node} {op : UnaryOp} {isBefore : Bool} {operand : Expr}
    (ho : d.Outruns v) (h : Yields (unary (.unary node op isBefore operand)) d u d') :
    Leaves v d d' := by
  cases op with
  | not =>
    obtain ⟨-, t, d₁, hv, h⟩ := yields_not.1 h
    obtain ⟨ht, hl⟩ := leaves_valueOf hv
    exact hl.trans (leaves_define (Term.within_not.2 ht) h)
  | increment | decrement => exact leaves_step ho h
  | plus => exact leaves_defineFrom h
  | minus =>
    obtain ⟨t, d₁, hv, h⟩ := yields_bind.1 h
    obtain ⟨ht, hl⟩ := leaves_valueOf hv
    exact hl.trans (leaves_define (Term.within_neg.2 ht) h)
  | bitNot | delete =>
    obtain rfl := yields_warn.1 h
    exact .warned

theorem leaves_binary {node : Node} {op : BinaryOp} {left right : Expr} {common : Ty}
    (h : Yields (binary (.binary node op left right common)) d u d') : Leaves v d d' := by
  cases op with
  | arithmetic op =>
    obtain ⟨ty, l, d₁, r, d₂, t, d₃, -, hl, hr, ha, h⟩ := yields_binaryArithmetic.1 h
    obtain ⟨hl, h₁⟩ := leaves_valueOf hl
    obtain ⟨hr, h₂⟩ := leaves_valueOf hr
    obtain ⟨ht, -, h₃⟩ := leaves_arithmetic hl hr ha
    exact h₁.trans (h₂.trans (h₃.trans (leaves_define ht h)))
  | comparison op =>
    obtain ⟨-, rfl⟩ | ⟨-, -, -, l, d₁, r, d₂, hl, hr, h⟩ := yields_comparison.1 h
    · exact .warned
    · obtain ⟨hl, h₁⟩ := leaves_valueOf hl
      obtain ⟨hr, h₂⟩ := leaves_valueOf hr
      exact h₁.trans (h₂.trans (leaves_define (Term.within_comparison op hl hr) h))
  | connective op =>
    obtain ⟨-, rfl⟩ | ⟨-, l, d₁, r, d₂, hl, hr, h⟩ := yields_connective.1 h
    · exact .warned
    · obtain ⟨hl, h₁⟩ := leaves_valueOf hl
      obtain ⟨hr, h₂⟩ := leaves_valueOf hr
      exact h₁.trans (h₂.trans (leaves_define (Term.within_connective op hl hr) h))
  | mod | exp | bitwise =>
    obtain rfl := yields_warn.1 h
    exact .warned

theorem leaves_assignedValue {target : Expr} {op : AssignOp} {x : Term} {r : Option Term}
    (ho : d.Outruns v) (hx : x.Within v.Precedes)
    (h : Yields (assignedValue e target op id x) d r d') :
    (∀ t ∈ r, t.Within v.Precedes) ∧ d'.Outruns v ∧ Leaves v d d' := by
  obtain ⟨-, rfl, rfl⟩ | ⟨aop, ty, -, -, ⟨-, rfl, rfl⟩ | ⟨w, new, hw, rfl, ha⟩⟩ :=
    yields_assignedValue.1 h
  · exact ⟨fun t ht => Option.some.inj ht ▸ hx, ho, .refl _⟩
  · exact ⟨by simp, ho, .warned⟩
  · obtain ⟨ht, hc, hl⟩ := leaves_arithmetic (ho.within_current hw) hx ha
    exact ⟨fun t h => Option.some.inj h ▸ ht, ho.later hc.later, hl⟩

theorem leaves_assignment {node : Node} {op : AssignOp} {target value : Expr} (ho : d.Outruns v)
    (h : Yields (assignment (.assignment node op target value)) d u d') : Leaves v d d' := by
  obtain ⟨m, name, id, isTarget, rfl⟩ := exists_of_yields_assignment h
  obtain ⟨-, rfl⟩ | ⟨-, x, d₁, r, d₂, hv, hr, h⟩ := yields_assignment.1 h
  · exact .warned
  obtain ⟨hx, h₁⟩ := leaves_valueOf hv
  have ho₁ : d₁.Outruns v := ho.later (continues_valueOf hv).later
  obtain ⟨ht, ho₂, h₂⟩ := leaves_assignedValue ho₁ hx hr
  obtain ⟨-, rfl⟩ | ⟨t, d₃, rfl, ha, h⟩ := h
  · exact h₁.trans h₂
  · exact h₁.trans (h₂.trans ((leaves_assign ho₂ (ht t rfl) ha).trans (leaves_define (ht t rfl) h)))

theorem leaves_assume (h : Yields (assume e) d u d') : Leaves v d d' := by
  obtain ⟨-, ⟨-, t, d₁, hv, rfl⟩ | ⟨-, rfl⟩⟩ := yields_assume.1 h
  · obtain ⟨ht, hl⟩ := leaves_valueOf hv
    exact hl.trans (.emitted ht)
  · exact .warned

end Draft

namespace Source.Expr

open Draft

mutual

/-- An expression that is encoded ahead of a version states nothing about it. -/
theorem leaves_encode (e : Expr) {d d' : Draft} {u : Unit} {v : Registered} (ho : d.Outruns v)
    (h : Yields e.encode d u d') : Leaves v d d' := by
  cases e with
  | literal node value => exact leaves_literal h
  | identifier node name declaration isTarget => exact leaves_identifier ho h
  | unary node op isBefore operand =>
    obtain ⟨d₁, hx, h⟩ := yields_seq.1 h
    exact (leaves_encode operand ho hx).trans
      (leaves_unary (ho.later (continues_encode hx).later) h)
  | binary node op left right common =>
    obtain ⟨d₁, hl, h⟩ := yields_seq.1 h
    obtain ⟨d₂, hr, h⟩ := yields_seq.1 h
    have ho₁ := ho.later (continues_encode hl).later
    exact (leaves_encode left ho hl).trans
      ((leaves_encode right ho₁ hr).trans (leaves_binary h))
  | assignment node op target value =>
    obtain ⟨d₁, hv, h⟩ := yields_seq.1 h
    obtain ⟨d₂, ht, h⟩ := yields_seq.1 h
    have ho₁ := ho.later (continues_encode hv).later
    have ho₂ := ho₁.later (continues_encode ht).later
    exact (leaves_encode value ho hv).trans
      ((leaves_encode target ho₁ ht).trans (leaves_assignment ho₂ h))
  | tuple node components isInlineArray =>
    obtain ⟨d₁, hx, h⟩ := yields_seq.1 h
    exact (leaves_encodeAll components ho hx).trans (leaves_tuple h)
  | call node callee arguments =>
    have hassert : Yields (encodeAssertion node arguments) d u d' → Leaves v d d' := by
      intro h
      cases arguments with
      | nil =>
        obtain rfl := yields_warn.1 h
        exact .warned
      | cons condition rest =>
        obtain ⟨d₁, hc, h⟩ := yields_seq.1 h
        exact (leaves_encode condition ho hc).trans (leaves_assume h)
    unfold encode at h
    split at h
    · exact hassert h
    · exact hassert h
    · obtain ⟨d₁, hx, h⟩ := yields_seq.1 h
      exact (leaves_encodeAll arguments ho hx).trans (Leaves.warned.trans (leaves_leaveOpen h))
  | index node base position => exact Leaves.warned.trans (leaves_leaveOpen h)
  | member node base name => exact Leaves.warned.trans (leaves_leaveOpen h)

theorem leaves_encodeAll (es : List Expr) {d d' : Draft} {u : Unit} {v : Registered}
    (ho : d.Outruns v) (h : Yields (encodeAll es) d u d') : Leaves v d d' := by
  cases es with
  | nil =>
    obtain ⟨-, rfl⟩ := yields_pure.1 h
    exact .refl _
  | cons e rest =>
    obtain ⟨d₁, he, h⟩ := yields_seq.1 h
    exact (leaves_encode e ho he).trans
      (leaves_encodeAll rest (ho.later (continues_encode he).later) h)

end

end Source.Expr

end PathFormula
