import PathFormula.Proofs.Joins

/-!
# Demands of expressions

Besides definitions, encoding an expression only states what the expression demands: that the
conditions of its assertions hold and, in a guarding draft, that its divisors are not zero. The
demands are read off the tree (`Expr.demands`), and each is one constraint under the path that is
open, in the order of encoding (`Expr.emits_encode`). Nothing here needs consistent annotations.
-/
namespace PathFormula

open Source

/-- What must hold where an expression is encoded. -/
inductive Demand where
  /-- A condition that is required or asserted. -/
  | condition (e : Expr)
  /-- The divisor of a division at some place. -/
  | divisor (e : Expr) (location : Location)
  deriving Repr

/-- The constraint that a demand becomes, its guard apart. -/
def Demand.StatedBy : Demand → Constraint → Prop
  | .condition e, c => (∃ sort, c.fact = e.term sort) ∧ c.location = e.location
  | .divisor e location, c =>
      (∃ sort, c.fact = .ne (e.term sort) (.ofInt 0)) ∧ c.location = location

/-- Definitions are equations and ranges are connectives; a demand is neither. -/
def Constraint.isDemand (c : Constraint) : Bool :=
  match c.fact with
  | .symbol _ | .not _ => true
  | _ => false

namespace Source.Expr

section

variable (guards : Bool) (known : Nat → Bool)

mutual

/-- The demands of an expression in the order of encoding, where divisions are guarded and where
some declarations have variables. -/
def demands : Expr → List Demand
  | .literal .. | .identifier .. | .index .. | .member .. => []
  | .unary _ _ _ operand => operand.demands
  | .binary node op left right _ =>
      left.demands ++ right.demands
        ++ if op = .arithmetic .div ∧ guards then [.divisor right node.location] else []
  | .assignment node op target value =>
      value.demands ++ target.demands
        ++ if (op = .arithmetic .div ∧ guards) ∧ target.ty.integer?.isSome
            ∧ target.referenced?.any known then [.divisor value node.location] else []
  | .tuple _ components _ => demandsOfAll components
  | .call _ callee arguments =>
      if callee.ty = .function .require ∨ callee.ty = .function .assert
        then demandsOfAssertion arguments else demandsOfAll arguments

def demandsOfAll : List Expr → List Demand
  | [] => []
  | e :: rest => e.demands ++ demandsOfAll rest

/-- Only the first argument of an assertion is encoded. -/
def demandsOfAssertion : List Expr → List Demand
  | [] => []
  | e :: _ => e.demands ++ if e.ty.isBool then [.condition e] else []

end

end

end Source.Expr

namespace Draft

/-- The demands of an expression where it is encoded in a draft. -/
def demands (d : Draft) (e : Expr) : List Demand :=
  e.demands d.settings.guardsDivision d.isRegistered

def demandsOfAll (d : Draft) (es : List Expr) : List Demand :=
  Expr.demandsOfAll d.settings.guardsDivision d.isRegistered es

variable {d d₁ d₂ d' : Draft} {u : Unit} {e : Expr} {location : Location}

/-- A later draft under the same path. -/
structure Continues (d d' : Draft) : Prop where
  later : Later d d'
  path : d'.path = d.path

namespace Continues

theorem refl (d : Draft) : Continues d d := ⟨.refl d, rfl⟩

theorem trans (h₁ : Continues d d₁) (h₂ : Continues d₁ d₂) : Continues d d₂ :=
  ⟨h₁.later.trans h₂.later, h₂.path.trans h₁.path⟩

theorem pathCondition (h : Continues d d') : d'.pathCondition = d.pathCondition := by
  unfold Draft.pathCondition
  rw [h.path]

theorem open_iff (h : Continues d d') {m : Model} : d'.Open m ↔ d.Open m := by
  unfold Open
  rw [h.pathCondition]

/-- A branch that was opened is closed again. -/
theorem popped {t : Term} (h : Continues (d.pushed t) d') : Continues d d'.popped where
  later := (Later.pushed.trans h.later).trans .withPath
  path := by
    unfold Draft.popped
    rw [h.path]
    rfl

end Continues

/-- A step that writes some variables at most and states some demands. -/
structure Emits (writes : Nat → Prop) (demands : List Demand) (d d' : Draft) : Prop
    extends Continues d d' where
  unwritten : ∀ id, ¬ writes id → d'.registered? id = d.registered? id
  states : ∃ new, d'.constraints = d.constraints ++ new ∧
    (∀ c ∈ new, c.guard = d.pathCondition) ∧
      List.Forall₂ Demand.StatedBy demands (new.filter Constraint.isDemand)

variable {writes : Nat → Prop} {xs ys : List Demand}

namespace Emits

theorem of_constraints (h : Continues d d') (hr : d'.registry = d.registry)
    (hc : d'.constraints = d.constraints) : Emits writes [] d d' where
  toContinues := h
  unwritten id _ := by
    unfold registered?
    rw [hr]
  states := ⟨[], by simp [hc], by simp, by simp⟩

theorem refl (d : Draft) : Emits writes [] d d := of_constraints (.refl d) rfl rfl

theorem trans (h₁ : Emits writes xs d d₁) (h₂ : Emits writes ys d₁ d₂) :
    Emits writes (xs ++ ys) d d₂ where
  toContinues := h₁.toContinues.trans h₂.toContinues
  unwritten id hid := (h₂.unwritten id hid).trans (h₁.unwritten id hid)
  states := by
    obtain ⟨new₁, hc₁, hg₁, hs₁⟩ := h₁.states
    obtain ⟨new₂, hc₂, hg₂, hs₂⟩ := h₂.states
    refine ⟨new₁ ++ new₂, by rw [hc₂, hc₁, List.append_assoc], fun c hc => ?_, ?_⟩
    · rcases List.mem_append.1 hc with hc | hc
      · exact hg₁ c hc
      · exact (hg₂ c hc).trans h₁.pathCondition
    · rw [List.filter_append]
      exact List.rel_append hs₁ hs₂

theorem mono {writes' : Nat → Prop} (h : Emits writes xs d d')
    (hw : ∀ id, writes id → writes' id) : Emits writes' xs d d' :=
  { h with unwritten := fun id hid => h.unwritten id (mt (hw id) hid) }

theorem both {w w' : Nat → Prop} (h₁ : Emits w xs d d₁) (h₂ : Emits w' ys d₁ d₂) :
    Emits (fun id => w id ∨ w' id) (xs ++ ys) d d₂ :=
  (h₁.mono fun _ => .inl).trans (h₂.mono fun _ => .inr)

/-- A step that states nothing comes first. -/
theorem after (h₁ : Emits writes [] d d₁) (h₂ : Emits writes xs d₁ d₂) : Emits writes xs d d₂ :=
  h₁.trans h₂

/-- A step that states nothing comes last. -/
theorem before (h₁ : Emits writes xs d d₁) (h₂ : Emits writes [] d₁ d₂) : Emits writes xs d d₂ := by
  simpa using h₁.trans h₂

theorem warned {notice : Notice} : Emits writes [] d (d.warned location notice) :=
  of_constraints ⟨.warned, rfl⟩ rfl rfl

theorem named {id : Nat} {sort : TermSort} (h : d.known.lookup id = none) :
    Emits writes [] d (d.named id sort) :=
  of_constraints ⟨.named h, rfl⟩ rfl rfl

/-- A fact that is no demand. -/
theorem defined {fact : Term} (h : Constraint.isDemand ⟨d.pathCondition, fact, location⟩ = false) :
    Emits writes [] d (d.emitted fact location) where
  toContinues := ⟨.emitted, rfl⟩
  unwritten _ _ := rfl
  states := ⟨[⟨d.pathCondition, fact, location⟩], rfl, by simp, by simp [h]⟩

theorem stated {fact : Term} {x : Demand} (h : x.StatedBy ⟨d.pathCondition, fact, location⟩) :
    Emits writes [x] d (d.emitted fact location) where
  toContinues := ⟨.emitted, rfl⟩
  unwritten _ _ := rfl
  states := by
    refine ⟨[⟨d.pathCondition, fact, location⟩], rfl, by simp, ?_⟩
    have hd : Constraint.isDemand ⟨d.pathCondition, fact, location⟩ = true := by
      cases x <;> obtain ⟨⟨sort, rfl⟩, -⟩ := h <;> rfl
    simp [hd, h]

theorem advanced {id : Nat} (hw : writes id) : Emits writes [] d (d.advanced id) where
  toContinues := ⟨.advanced, rfl⟩
  unwritten other hid := by
    have hne : ¬ other = id := by
      rintro rfl
      exact hid hw
    rw [registered?_advanced, if_neg hne]
    simp
  states := ⟨[], by simp, by simp, by simp⟩

end Emits

theorem Later.isRegistered_eq (h : Later d d') : d'.isRegistered = d.isRegistered :=
  funext h.isRegistered

theorem Later.demands (h : Later d d') : d'.demands = d.demands := by
  unfold Draft.demands
  rw [h.isRegistered_eq, h.settings]

theorem Later.demandsOfAll (h : Later d d') : d'.demandsOfAll = d.demandsOfAll := by
  unfold Draft.demandsOfAll
  rw [h.isRegistered_eq, h.settings]

/-! ### Operations -/

section Operations

variable {t : Term} {id : Nat}

theorem emits_valueOf (h : Yields (valueOf e) d t d') : Emits writes [] d d' := by
  obtain ⟨sort, -, ⟨-, rfl⟩ | ⟨hk, -, -, -, rfl⟩⟩ := yields_valueOf.1 h
  · exact .refl d'
  · exact Emits.warned.after (.named hk)

theorem emits_define (h : Yields (define e t) d u d') : Emits writes [] d d' := by
  obtain ⟨-, sort, ⟨-, rfl⟩ | ⟨hk, -, rfl⟩⟩ := yields_define.1 h
  · exact .defined rfl
  · exact (Emits.named hk).after (.defined rfl)

theorem emits_create (h : Yields (create e) d u d') : Emits writes [] d d' := by
  obtain ⟨-, ⟨-, rfl⟩ | ⟨hk, sort, -, rfl⟩⟩ := yields_create.1 h
  · exact .warned
  · exact .named hk

theorem emits_defineFrom {x : Expr} (h : Yields (defineFrom e x) d u d') :
    Emits writes [] d d' := by
  obtain ⟨t, d₁, hv, h⟩ := yields_bind.1 h
  exact (emits_valueOf hv).after (emits_define h)

theorem emits_leaveOpen (h : Yields (leaveOpen e) d u d') : Emits writes [] d d' := by
  unfold leaveOpen at h
  split at h
  · exact emits_create h
  · obtain ⟨-, rfl⟩ := yields_pure.1 h
    exact .refl d'

theorem emits_assign (hw : writes id) (h : Yields (assign id t location) d u d') :
    Emits writes [] d d' := by
  obtain ⟨-, ⟨-, rfl⟩ | ⟨v, -, rfl⟩⟩ := yields_assign.1 h
  · exact .warned
  · exact (Emits.advanced hw).after (.defined rfl)

theorem emits_forget (hw : writes id) (h : Yields (forget id location) d u d') :
    Emits writes [] d d' := by
  obtain ⟨-, ⟨-, rfl⟩ | ⟨v, -, rfl⟩⟩ := yields_forget.1 h
  · exact .warned
  · refine (Emits.advanced hw).after (.defined ?_)
    unfold Variable.rangeFact
    cases v.advance.domain <;> rfl

theorem emits_assume {x : Expr} (h : Yields (assume x) d u d') :
    Emits writes (if x.ty.isBool then [.condition x] else []) d d' := by
  obtain ⟨-, ⟨hb, t, d₁, hv, rfl⟩ | ⟨hb, rfl⟩⟩ := yields_assume.1 h
  · obtain ⟨sort, rfl, -⟩ := yields_valueOf.1 hv
    rw [if_pos hb]
    exact (emits_valueOf hv).after (.stated ⟨⟨sort, rfl⟩, rfl⟩)
  · rw [hb]
    exact .warned

/-- A division by the value of an expression. -/
theorem emits_arithmetic {op : Arithmetic} {ty : IntegerType} {a : Term} {x : Expr}
    {sort : TermSort} (h : Yields (arithmetic op ty a (x.term sort) location) d t d') :
    Emits writes
      (if op = .div ∧ d.settings.guardsDivision = true then [.divisor x location] else [])
      d d' := by
  obtain ⟨-, rfl⟩ := yields_arithmetic.1 h
  by_cases hg : op = .div ∧ d.settings.guardsDivision = true
  · rw [if_pos hg, if_pos hg]
    exact .stated ⟨⟨sort, rfl⟩, rfl⟩
  · rw [if_neg hg, if_neg hg]
    exact .refl d

end Operations

/-! ### Nodes -/

section Nodes

theorem emits_literal {value : Literal} (h : Yields (literal e value) d u d') :
    Emits writes [] d d' := by
  unfold literal at h
  split at h
  · exact emits_define h
  · split at h
    · exact emits_define h
    · exact emits_create h
  · split at h
    · exact emits_define h
    · exact emits_create h
  · obtain rfl := yields_warn.1 h
    exact .warned

theorem emits_defineFromVariable {id : Nat} (h : Yields (defineFromVariable e id) d u d') :
    Emits writes [] d d' := by
  unfold defineFromVariable at h
  rw [yields_get_bind] at h
  split at h
  · exact emits_define h
  · split at h <;> obtain rfl := yields_warn.1 h <;> exact .warned

theorem emits_identifier {name : String} {declaration : Option Nat} {isTarget : Bool}
    (h : Yields (identifier e name declaration isTarget) d u d') : Emits writes [] d d' := by
  unfold identifier at h
  split at h
  · obtain ⟨-, rfl⟩ := yields_pure.1 h
    exact .refl d'
  · obtain ⟨-, rfl⟩ := yields_pure.1 h
    exact .refl d'
  · split at h
    · exact emits_defineFromVariable h
    · obtain rfl := yields_warn.1 h
      exact .warned

theorem emits_tuple {components : List Expr} {isInlineArray : Bool}
    (h : Yields (tuple e components isInlineArray) d u d') : Emits writes [] d d' := by
  unfold tuple at h
  split at h
  · split at h
    · exact emits_defineFrom h
    · obtain ⟨-, rfl⟩ := yields_pure.1 h
      exact .refl d'
  · obtain rfl := yields_warn.1 h
    exact .warned

theorem emits_step {isUp isBefore : Bool} {operand : Expr}
    (hw : ∀ id ∈ operand.referenced?, writes id)
    (h : Yields (step e isUp isBefore operand) d u d') : Emits writes [] d d' := by
  obtain ⟨-, ⟨notice, rfl⟩ | ⟨node, name, id, isTarget, v, rfl, -, d₁, ha, h⟩⟩ := yields_step h
  · exact .warned
  · exact (emits_assign (hw id rfl) ha).after (emits_define h)

theorem emits_unary {node : Node} {op : UnaryOp} {isBefore : Bool} {operand : Expr}
    (h : Yields (unary (.unary node op isBefore operand)) d u d') :
    Emits (· ∈ (Expr.unary node op isBefore operand).writes) [] d d' := by
  cases op with
  | not =>
    obtain ⟨-, t, d₁, hv, h⟩ := yields_not.1 h
    exact (emits_valueOf hv).after (emits_define h)
  | increment | decrement =>
    refine emits_step (fun id hid => ?_) h
    simp only [Option.mem_def] at hid
    simp [Expr.writes, hid]
  | plus => exact emits_defineFrom h
  | minus =>
    obtain ⟨t, d₁, hv, h⟩ := yields_bind.1 h
    exact (emits_valueOf hv).after (emits_define h)
  | bitNot | delete =>
    obtain rfl := yields_warn.1 h
    exact .warned

theorem emits_binary {node : Node} {op : BinaryOp} {left right : Expr} {common : Ty}
    (h : Yields (binary (.binary node op left right common)) d u d') :
    Emits writes (if op = .arithmetic .div ∧ d.settings.guardsDivision = true
      then [.divisor right node.location] else []) d d' := by
  cases op with
  | arithmetic op =>
    obtain ⟨ty, l, d₁, r, d₂, t, d₃, -, hl, hr, ha, h⟩ := yields_binaryArithmetic.1 h
    obtain ⟨sort, rfl, -⟩ := yields_valueOf.1 hr
    have hv : Emits writes [] d d₂ := (emits_valueOf hl).after (emits_valueOf hr)
    have he := (hv.after (emits_arithmetic ha)).before (emits_define h)
    rw [hv.later.settings] at he
    simpa [Expr.location, Expr.node] using he
  | comparison op =>
    obtain ⟨-, rfl⟩ | ⟨sort, -, -, l, d₁, r, d₂, hl, hr, h⟩ := yields_comparison.1 h
    · simpa using Emits.warned
    · simpa using (emits_valueOf hl).after ((emits_valueOf hr).after (emits_define h))
  | connective op =>
    obtain ⟨-, rfl⟩ | ⟨-, l, d₁, r, d₂, hl, hr, h⟩ := yields_connective.1 h
    · simpa using Emits.warned
    · simpa using (emits_valueOf hl).after ((emits_valueOf hr).after (emits_define h))
  | mod | exp | bitwise =>
    obtain rfl := yields_warn.1 h
    simpa using Emits.warned

theorem emits_assignedValue {op : AssignOp} {target : Expr} {id : Nat} {x : Expr}
    {sort : TermSort} {r : Option Term}
    (h : Yields (assignedValue e target op id (x.term sort)) d r d') :
    Emits writes (if (op = .arithmetic .div ∧ d.settings.guardsDivision = true) ∧
      target.ty.integer?.isSome ∧ d.isRegistered id then [.divisor x e.location] else []) d d' := by
  obtain ⟨rfl, -, rfl⟩ | ⟨aop, ty, rfl, hty, ⟨hr, -, rfl⟩ | ⟨v, t, hr, -, ha⟩⟩ :=
    yields_assignedValue.1 h
  · exact .refl d'
  · simpa [isRegistered, hr] using Emits.warned
  · simpa [isRegistered, hr, hty] using emits_arithmetic ha

theorem emits_assignment {node : Node} {op : AssignOp} {target value : Expr}
    (h : Yields (assignment (.assignment node op target value)) d u d') :
    Emits (· ∈ (Expr.assignment node op target value).writes)
      (if (op = .arithmetic .div ∧ d.settings.guardsDivision = true) ∧ target.ty.integer?.isSome
        ∧ target.referenced?.any d.isRegistered then [.divisor value node.location] else [])
      d d' := by
  obtain ⟨m, name, id, isTarget, rfl⟩ := exists_of_yields_assignment h
  obtain ⟨⟨err, hty⟩, rfl⟩ | ⟨-, x, d₁, r, d₂, hv, hr, h⟩ := yields_assignment.1 h
  · have hn : m.ty.integer? = none := by
      cases ht : m.ty <;> first | rfl | (rw [ht] at hty; cases hty)
    simpa [Expr.ty, Expr.node, hn] using Emits.warned
  · obtain ⟨sort, rfl, -⟩ := yields_valueOf.1 hv
    have hl : Emits (· ∈ (Expr.assignment node op
      (.identifier m name (some id) isTarget) value).writes) [] d d₁ := emits_valueOf hv
    have he := hl.after (emits_assignedValue hr)
    rw [hl.later.settings, hl.later.isRegistered] at he
    refine .before he ?_
    obtain ⟨-, rfl⟩ | ⟨t, d₃, -, ha, h⟩ := h
    · exact .refl d'
    · exact (emits_assign (by simp [Expr.writes, Expr.referenced?]) ha).after (emits_define h)

end Nodes

end Draft

namespace Source.Expr

open Draft

/-- The encoding of a call to `require` or `assert`. -/
def encodeAssertion (node : Node) : List Expr → Drafting Unit
  | [] => Draft.warn node.location .missingCondition
  | condition :: _ => do
      condition.encode
      Draft.assume condition

mutual

/-- Encoding an expression writes what the expression writes and states what it demands. -/
theorem emits_encode (e : Expr) {d d' : Draft} {u : Unit} (h : Yields e.encode d u d') :
    Emits (· ∈ e.writes) (d.demands e) d d' := by
  cases e with
  | literal node value => exact emits_literal h
  | identifier node name declaration isTarget => exact emits_identifier h
  | unary node op isBefore operand =>
    obtain ⟨d₁, ho, h⟩ := yields_seq.1 h
    exact ((emits_encode operand ho).mono (by simp +contextual [writes])).before (emits_unary h)
  | binary node op left right common =>
    obtain ⟨d₁, hl, h⟩ := yields_seq.1 h
    obtain ⟨d₂, hr, h⟩ := yields_seq.1 h
    have hl := emits_encode left hl
    have hr := emits_encode right hr
    rw [hl.later.demands] at hr
    refine ((hl.both hr).mono (by simp [writes])).trans ?_
    rw [← hl.later.settings, ← hr.later.settings]
    exact emits_binary h
  | assignment node op target value =>
    obtain ⟨d₁, hv, h⟩ := yields_seq.1 h
    obtain ⟨d₂, ht, h⟩ := yields_seq.1 h
    have hv := emits_encode value hv
    have ht := emits_encode target ht
    rw [hv.later.demands] at ht
    refine ((hv.both ht).mono (by simp +contextual [writes])).trans ?_
    rw [← hv.later.settings, ← ht.later.settings, ← hv.later.isRegistered_eq,
      ← ht.later.isRegistered_eq]
    exact emits_assignment h
  | tuple node components isInlineArray =>
    obtain ⟨d₁, ho, h⟩ := yields_seq.1 h
    exact ((emits_encodeAll components ho).mono (by simp +contextual [writes])).before
      (emits_tuple h)
  | call node callee arguments =>
    have hassert : callee.ty = .function .require ∨ callee.ty = .function .assert →
        Yields (encodeAssertion node arguments) d u d' →
          Emits (· ∈ (Expr.call node callee arguments).writes)
            (d.demands (.call node callee arguments)) d d' := by
      intro hty h
      unfold Draft.demands demands
      rw [if_pos hty]
      cases arguments with
      | nil =>
        obtain rfl := yields_warn.1 h
        exact .warned
      | cons condition rest =>
        obtain ⟨d₁, hc, h⟩ := yields_seq.1 h
        exact ((emits_encode condition hc).mono
          (by simp +contextual [writes, writesOfAll])).trans (emits_assume h)
    unfold encode at h
    split at h
    · exact hassert (.inl ‹_›) h
    · exact hassert (.inr ‹_›) h
    · rename_i hr ha
      obtain ⟨d₁, ho, h⟩ := yields_seq.1 h
      unfold Draft.demands demands
      rw [if_neg (by rintro (hty | hty) <;> contradiction)]
      exact ((emits_encodeAll arguments ho).mono (by simp +contextual [writes])).before
        (.after .warned (emits_leaveOpen h))
  | index node base position =>
    exact .after .warned (emits_leaveOpen h)
  | member node base name =>
    exact .after .warned (emits_leaveOpen h)

theorem emits_encodeAll (es : List Expr) {d d' : Draft} {u : Unit}
    (h : Yields (encodeAll es) d u d') : Emits (· ∈ writesOfAll es) (d.demandsOfAll es) d d' := by
  cases es with
  | nil =>
    obtain ⟨-, rfl⟩ := yields_pure.1 h
    exact .refl _
  | cons e rest =>
    obtain ⟨d₁, he, h⟩ := yields_seq.1 h
    have he := emits_encode e he
    have hr := emits_encodeAll rest h
    rw [he.later.demandsOfAll] at hr
    exact (he.both hr).mono (by simp [writesOfAll])

end

end Source.Expr

end PathFormula
