import PathFormula.Proofs.Annotation

/-!
# The exact fragment

The expressions and statements whose encoding says neither more nor less than their execution, with
types that fit. They are consistent (`Typed.consistent`, `Plain.consistent`), and an expression of
the fragment asserts nothing.
-/
namespace PathFormula

open Source

namespace Source.Expr

/-- The expressions of the fragment, with their sorts. Targets may or may not be flagged as such,
and the second side of a connective writes nothing. -/
inductive Typed (Γ : Nat → Option Domain) : Expr → TermSort → Prop where
  | bool {node : Node} {b : Bool} (ht : node.ty = .bool) : Typed Γ (.literal node (.bool b)) .bool
  | number {node : Node} {q : Rat} (hq : q.den = 1)
      (ht : (literal node (.number q)).termSort = .ok .int) :
      Typed Γ (.literal node (.number q)) .int
  | identifier {node : Node} {name : String} {id : Nat} {domain : Domain} (hd : Γ id = some domain)
      (ht : node.ty = domain.ty) : Typed Γ (.identifier node name (some id) false) domain.sort
  | not {node : Node} {isBefore : Bool} {operand : Expr} (ho : Typed Γ operand .bool)
      (ht : node.ty = .bool) : Typed Γ (.unary node .not isBefore operand) .bool
  | step {node m : Node} {op : UnaryOp} {isBefore isTarget : Bool} {name : String} {id : Nat}
      {ty : IntegerType} (hop : op = .increment ∨ op = .decrement)
      (hd : Γ id = some (.integer ty)) (hm : m.ty = .integer ty) (ht : node.ty = .integer ty) :
      Typed Γ (.unary node op isBefore (.identifier m name (some id) isTarget)) .int
  | plus {node : Node} {isBefore : Bool} {operand : Expr} (ho : Typed Γ operand .int)
      (ht : (unary node .plus isBefore operand).termSort = .ok .int) :
      Typed Γ (.unary node .plus isBefore operand) .int
  | minus {node : Node} {isBefore : Bool} {operand : Expr} (ho : Typed Γ operand .int)
      (ht : (unary node .minus isBefore operand).termSort = .ok .int) :
      Typed Γ (.unary node .minus isBefore operand) .int
  | arithmetic {node : Node} {op : Arithmetic} {left right : Expr} {ty : IntegerType}
      (hl : Typed Γ left .int) (hr : Typed Γ right .int)
      (ht : (binary node (.arithmetic op) left right (.integer ty)).termSort = .ok .int) :
      Typed Γ (.binary node (.arithmetic op) left right (.integer ty)) .int
  | comparison {node : Node} {op : Comparison} {left right : Expr} {common : Ty} {sort : TermSort}
      (hl : Typed Γ left sort) (hr : Typed Γ right sort) (hc : common.variableSort = .ok sort)
      (ho : sort = .bool → op.isEquality = true) (ht : node.ty = .bool) :
      Typed Γ (.binary node (.comparison op) left right common) .bool
  | connective {node : Node} {op : Connective} {left right : Expr} (hl : Typed Γ left .bool)
      (hr : Typed Γ right .bool) (hw : right.writes = []) (ht : node.ty = .bool) :
      Typed Γ (.binary node (.connective op) left right .bool) .bool
  | assign {node m : Node} {name : String} {id : Nat} {isTarget : Bool} {value : Expr}
      {domain : Domain} (hv : Typed Γ value domain.sort) (hd : Γ id = some domain)
      (hm : m.ty = domain.ty) (ht : node.ty = domain.ty) :
      Typed Γ (.assignment node .plain (.identifier m name (some id) isTarget) value) domain.sort
  | compound {node m : Node} {op : Arithmetic} {name : String} {id : Nat} {isTarget : Bool}
      {value : Expr} {ty : IntegerType} (hv : Typed Γ value .int)
      (hd : Γ id = some (.integer ty)) (hm : m.ty = .integer ty) (ht : node.ty = .integer ty) :
      Typed Γ (.assignment node (.arithmetic op) (.identifier m name (some id) isTarget) value) .int
  | tuple {node : Node} {single : Expr} {sort : TermSort} (hs : Typed Γ single sort)
      (ht : (tuple node [single] false).termSort = .ok sort) :
      Typed Γ (.tuple node [single] false) sort

namespace Typed

variable {Γ : Nat → Option Domain} {e : Expr} {sort : TermSort}

theorem termSort_of_bool (h : e.ty = .bool) : e.termSort = .ok .bool := by
  unfold Expr.termSort
  rw [h]

theorem termSort_of_int {ty : IntegerType} (h : e.ty = .integer ty) : e.termSort = .ok .int := by
  unfold Expr.termSort
  rw [h]

theorem termSort_of_ty {domain : Domain} (h : e.ty = domain.ty) : e.termSort = .ok domain.sort := by
  cases domain with
  | bool => exact termSort_of_bool h
  | integer ty => exact termSort_of_int h

theorem termSort (h : Typed Γ e sort) : e.termSort = .ok sort := by
  cases h with
  | bool ht | not _ ht | comparison _ _ _ _ ht | connective _ _ _ ht => exact termSort_of_bool ht
  | number _ ht | plus _ ht | minus _ ht | arithmetic _ _ ht | tuple _ ht => exact ht
  | identifier _ ht | assign _ _ _ ht => exact termSort_of_ty ht
  | step _ _ _ ht | compound _ _ _ ht => exact termSort_of_int ht

theorem termSort_identifier {m : Node} {name : String} {declaration : Option Nat} {isTarget : Bool}
    {domain : Domain} (hm : m.ty = domain.ty) :
    (Expr.identifier m name declaration isTarget).termSort = .ok domain.sort :=
  termSort_of_ty hm

theorem matches_of_fits {a b : Expr} (ha : a.Fits sort) (hb : b.termSort = .ok sort) :
    a.Matches b := by
  intro s hs
  cases hb.symm.trans hs
  exact ha

theorem ty_of_bool (h : e.termSort = .ok .bool) : e.ty = .bool := by
  unfold Expr.termSort at h
  split at h <;> try cases h
  · split at h <;> cases h
  · assumption

theorem fits (h : Typed Γ e sort) : e.Fits sort := fits_of_eq h.termSort

theorem identifier_agrees {m : Node} {name : String} {id : Nat} {isTarget : Bool} {domain : Domain}
    (hd : Γ id = some domain) (hm : m.ty = domain.ty) :
    (Expr.identifier m name (some id) isTarget).Agrees Γ := by
  intro other ho
  cases hd.symm.trans ho
  exact hm

/-- The annotations in an expression of the fragment fit. -/
theorem consistent (h : Typed Γ e sort) : e.Consistent Γ := by
  have hself := h.fits
  have hcons : ∀ {x : Expr} {xs : List Expr}, x.Agrees Γ → (∀ y ∈ xs, y.Agrees Γ) →
      ∀ y ∈ x :: xs, y.Agrees Γ := fun hx hxs => List.forall_mem_cons.2 ⟨hx, hxs⟩
  have happend : ∀ {xs ys : List Expr}, (∀ y ∈ xs, y.Agrees Γ) → (∀ y ∈ ys, y.Agrees Γ) →
      ∀ y ∈ xs ++ ys, y.Agrees Γ := fun hx hy => List.forall_mem_append.2 ⟨hx, hy⟩
  induction h with
  | bool | number => exact hcons trivial (by simp)
  | identifier hd ht => exact hcons (identifier_agrees hd ht) (by simp)
  | not ho _ ih => exact hcons ho.fits (ih ho.fits)
  | @step _ m _ _ _ _ _ ty hop hd hm =>
    have hm' : m.ty = (Domain.integer ty).ty := hm
    refine hcons ?_ (hcons (identifier_agrees hd hm') (by simp))
    rcases hop with rfl | rfl <;> exact fits_of_eq (termSort_identifier hm')
  | plus ho ht ih => exact hcons (matches_of_fits hself ho.termSort) (ih ho.fits)
  | minus ho ht ih => exact hcons ⟨hself, ho.fits⟩ (ih ho.fits)
  | arithmetic hl hr ht ihl ihr =>
    exact hcons ⟨hself, hl.fits, hr.fits⟩ (happend (ihl hl.fits) (ihr hr.fits))
  | comparison hl hr hc ho ht ihl ihr =>
    refine hcons ⟨hself, fun s hs => ?_⟩ (happend (ihl hl.fits) (ihr hr.fits))
    cases hc.symm.trans hs
    exact ⟨hl.fits, hr.fits⟩
  | connective hl hr hw ht ihl ihr =>
    exact hcons ⟨hself, hl.fits, hr.fits⟩ (happend (ihl hl.fits) (ihr hr.fits))
  | assign hv hd hm ht ih =>
    exact hcons ⟨matches_of_fits hself (termSort_identifier hm),
        matches_of_fits (fits_of_eq (termSort_identifier hm)) hv.termSort⟩
      (happend (ih hv.fits) (hcons (identifier_agrees hd hm) (by simp)))
  | @compound _ m _ _ _ _ _ ty hv hd hm ht ih =>
    have hm' : m.ty = (Domain.integer ty).ty := hm
    exact hcons ⟨matches_of_fits hself (termSort_identifier hm'),
        matches_of_fits (fits_of_eq (termSort_identifier hm')) hv.termSort⟩
      (happend (ih hv.fits) (hcons (identifier_agrees hd hm') (by simp)))
  | tuple hs ht ih =>
    exact hcons (matches_of_fits hself hs.termSort) (happend (ih hs.fits) (by simp [nodesOfAll]))

/-- An expression of the fragment has no call in it. -/
theorem not_isAssertion (h : Typed Γ e sort) : ∀ x ∈ e.nodes, x.isAssertion = false := by
  induction h <;> simp_all [nodes, nodesOfAll, isAssertion, or_imp]

end Typed

end Source.Expr

namespace Source.Stmt

/-- Declarations and expressions. -/
def isSimple : Stmt → Bool
  | .declare .. | .expression .. => true
  | _ => false

mutual

/-- The statements of the fragment, which may have loops in them or not. -/
def Plain (loops : Prop) (Γ : Nat → Option Domain) (returns : List Declaration) : Stmt → Prop
  | .block _ body => PlainAll loops Γ returns body
  | .declare _ declarations initial =>
      ∃ declaration, declarations = [declaration] ∧ ∀ e ∈ initial, ∃ sort, Expr.Typed Γ e sort ∧
        ∀ domain ∈ Γ declaration.id, domain.sort = sort
  | .expression _ e =>
      (∃ sort, Expr.Typed Γ e sort) ∨
        e.Consistent Γ ∧ ∃ condition, e.asserted? = some condition ∧ Expr.Typed Γ condition .bool
  | .branch _ condition yes no =>
      Expr.Typed Γ condition .bool ∧ yes.Plain loops Γ returns ∧ PlainOption loops Γ returns no
  | .whileLoop _ condition body _ =>
      loops ∧ Expr.Typed Γ condition .bool ∧ body.Plain loops Γ returns
  | .forLoop _ start condition step body =>
      loops ∧ (∀ s ∈ start, s.isSimple) ∧ PlainOption loops Γ returns start ∧
        (∀ e ∈ condition, Expr.Typed Γ e .bool) ∧ (∀ e ∈ step, ∃ sort, Expr.Typed Γ e sort) ∧
          body.Plain loops Γ returns
  | .ret _ value =>
      ∀ e ∈ value, ∃ slot domain, returns = [slot] ∧ Γ slot.id = some domain ∧
        Expr.Typed Γ e domain.sort

def PlainAll (loops : Prop) (Γ : Nat → Option Domain) (returns : List Declaration) :
    List Stmt → Prop
  | [] => True
  | s :: rest => s.Plain loops Γ returns ∧ PlainAll loops Γ returns rest

def PlainOption (loops : Prop) (Γ : Nat → Option Domain) (returns : List Declaration) :
    Option Stmt → Prop
  | none => True
  | some s => s.Plain loops Γ returns

end

variable {loops : Prop} {Γ : Nat → Option Domain} {returns : List Declaration}

mutual

theorem Plain.consistent : ∀ {s : Stmt}, s.Plain loops Γ returns → s.Consistent Γ returns
  | .block _ _, h => PlainAll.consistent h
  | .declare _ _ _, h => by
    obtain ⟨declaration, rfl, hi⟩ := h
    intro e he
    obtain ⟨sort, ht, hs⟩ := hi e he
    refine ⟨ht.consistent, fun domain hd => ?_⟩
    rw [hs domain hd]
    exact ht.fits
  | .expression _ _, h => by
    rcases h with ⟨sort, ht⟩ | ⟨hc, -⟩
    · exact ht.consistent
    · exact hc
  | .branch _ _ _ _, h =>
    ⟨h.1.consistent, h.1.termSort, Plain.consistent h.2.1, PlainOption.consistent h.2.2⟩
  | .whileLoop _ _ _ _, h => ⟨h.2.1.consistent, h.2.1.termSort, Plain.consistent h.2.2⟩
  | .forLoop _ _ _ _ _, h => by
    obtain ⟨-, -, hf, hc, hs, hb⟩ := h
    refine ⟨hf.consistent, fun e he => ⟨(hc e he).consistent, (hc e he).termSort⟩, fun e he => ?_,
      hb.consistent⟩
    obtain ⟨sort, ht⟩ := hs e he
    exact ht.consistent
  | .ret _ _, h => by
    intro e he
    obtain ⟨slot, domain, rfl, hd, ht⟩ := h e he
    refine ⟨ht.consistent, fun other ho => ?_⟩
    cases hd.symm.trans ho
    exact ht.fits

theorem PlainAll.consistent :
    ∀ {body : List Stmt}, PlainAll loops Γ returns body → ConsistentAll Γ returns body
  | [], _ => trivial
  | _ :: _, h => ⟨h.1.consistent, PlainAll.consistent h.2⟩

theorem PlainOption.consistent :
    ∀ {s : Option Stmt}, PlainOption loops Γ returns s → ConsistentOption Γ returns s
  | none, _ => trivial
  | some s, h => Plain.consistent (s := s) h

end

end Source.Stmt

end PathFormula
