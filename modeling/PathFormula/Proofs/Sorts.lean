import Mathlib.Control.Traversable.Instances
import PathFormula.Proofs.BodyTraces
import PathFormula.Source.Builder

/-!
# Sorts of a formula

The term language does not check the sorts of arguments. Where the annotations of a function fit
(`Uses.Annotated`), every step of its encoding puts terms together that a solver accepts, also where
it warns and goes on (`WellSorted.step`). So all that is stated about such a function is well sorted
(`wellSorted_outcome`).
-/
namespace PathFormula

open Source

namespace Term

/-- A term and everything inside it. -/
def subterms : Term → List Term
  | .leaf text sort => [.leaf text sort]
  | .symbol s => [.symbol s]
  | .not a => .not a :: a.subterms
  | .dyadic op a b => .dyadic op a b :: (a.subterms ++ b.subterms)
  | .ite condition yes no =>
      .ite condition yes no :: (condition.subterms ++ (yes.subterms ++ no.subterms))

theorem HasSort.self {t : Term} {sort : TermSort} (h : HasSort t sort) : HasSort t t.sort :=
  h.sort_eq ▸ h

/-- Everything in a well-sorted term has the sort that is read off it. -/
theorem HasSort.subterms {t : Term} {sort : TermSort} (h : HasSort t sort) :
    ∀ u ∈ t.subterms, HasSort u u.sort := by
  induction h with
  | leaf hc => exact List.forall_mem_singleton.2 (.leaf hc)
  | symbol => exact List.forall_mem_singleton.2 .symbol
  | not ha iha => exact List.forall_mem_cons.2 ⟨.not ha, iha⟩
  | dyadic ho ha hb iha ihb =>
    exact List.forall_mem_cons.2 ⟨.dyadic ho ha hb, List.forall_mem_append.2 ⟨iha, ihb⟩⟩
  | eq ha hb iha ihb =>
    exact List.forall_mem_cons.2 ⟨.eq ha hb, List.forall_mem_append.2 ⟨iha, ihb⟩⟩
  | ite hc hy hn ihc ihy ihn =>
    exact List.forall_mem_cons.2 ⟨(HasSort.ite hc hy hn).self,
      List.forall_mem_append.2 ⟨ihc, List.forall_mem_append.2 ⟨ihy, ihn⟩⟩⟩

theorem sort_eq_of_hasSort_eq {a b : Term} {sort : TermSort} (h : HasSort (.eq a b) sort) :
    a.sort = b.sort := by
  cases h with
  | dyadic ho => cases ho
  | eq ha hb => exact ha.sort_eq.trans hb.sort_eq.symm

theorem HasSort.implies {a b : Term} (ha : HasSort a .bool) (hb : HasSort b .bool) :
    HasSort (.implies a b) .bool :=
  .dyadic rfl (.not ha) hb

end Term

theorem Variable.hasSort_rangeFact (v : Variable) : v.rangeFact.HasSort .bool := by
  unfold Variable.rangeFact
  have hv := Term.hasSort_version v v.version
  cases hd : v.domain with
  | bool =>
    have hs : v.sort = .bool := by rw [Variable.sort, hd]; rfl
    exact .implies (hs ▸ hv) (Term.hasSort_ofBool true)
  | integer ty =>
    have hs : v.sort = .int := by rw [Variable.sort, hd]; rfl
    exact .dyadic rfl (.dyadic rfl (hs ▸ hv) (Term.hasSort_ofInt _))
      (.dyadic rfl (hs ▸ hv) (Term.hasSort_ofInt _))

/-- Both start facts are about the variable at its own sort. -/
theorem Partition.hasSort_startFact (partition : Partition) (v : Variable) :
    (partition.startFact v).HasSort .bool := by
  cases partition with
  | state | parameter => exact v.hasSort_rangeFact
  | «local» | «return» => exact .eq (Term.hasSort_version v v.version) (Term.hasSort_zero v.sort)

namespace Source.Expr

/-- The operands of a node have the sorts that its operation takes, and an identifier has the type
of its declaration. -/
def OperandsFit (Γ : Nat → Option Domain) (e : Expr) : Prop :=
  match e with
  | .identifier node _ (some id) _ => ∀ domain ∈ Γ id, node.ty = domain.ty
  | .unary _ op _ operand =>
      match op with
      | .not => operand.Fits .bool
      | .increment | .decrement | .minus => operand.Fits .int
      | .plus | .bitNot | .delete => True
  | .binary _ op left right _ =>
      match op with
      | .arithmetic _ => left.Fits .int ∧ right.Fits .int
      | .comparison op =>
          if op.isEquality then left.Matches right else left.Fits .int ∧ right.Fits .int
      | .connective _ => left.Fits .bool ∧ right.Fits .bool
      | .mod | .exp | .bitwise _ => True
  | .assignment _ _ target value => target.Matches value
  | .tuple _ [single] false => e.Matches single
  | _ => True

theorem OperandsFit.step {Γ : Nat → Option Domain} {node : Node} {isUp isBefore : Bool}
    {operand : Expr} (h : OperandsFit Γ (.unary node (stepOp isUp) isBefore operand)) :
    operand.Fits .int := by
  cases isUp <;> exact h

/-- A node of an integer type has an integer's symbol. -/
theorem termSort_of_isSome {e : Expr} (h : e.ty.integer?.isSome) : e.termSort = .ok .int := by
  obtain ⟨ty, hty⟩ := Option.isSome_iff_exists.1 h
  exact termSort_of_integer hty

/-- A node is annotated with no sort but that of its result. -/
def ResultFits (e : Expr) : Prop :=
  match e with
  | .unary _ .plus _ operand => e.Matches operand
  | .unary _ .minus _ _ | .binary _ (.arithmetic _) _ _ _ => e.Fits .int
  | .binary _ (.comparison _) _ _ _ | .binary _ (.connective _) _ _ _ => e.Fits .bool
  | .assignment _ _ target _ => e.Matches target
  | _ => True

section Decidable

variable (Γ : Nat → Option Domain)

instance (e : Expr) : Decidable (e.OperandsFit Γ) :=
  match e with
  | .identifier node _ (some id) _ =>
      inferInstanceAs (Decidable (∀ domain ∈ Γ id, node.ty = domain.ty))
  | .unary _ op _ operand =>
      match op with
      | .not => inferInstanceAs (Decidable (operand.Fits .bool))
      | .increment | .decrement | .minus => inferInstanceAs (Decidable (operand.Fits .int))
      | .plus | .bitNot | .delete => .isTrue trivial
  | .binary _ op left right _ =>
      match op with
      | .arithmetic _ => inferInstanceAs (Decidable (left.Fits .int ∧ right.Fits .int))
      | .comparison op =>
          inferInstanceAs (Decidable
            (if op.isEquality then left.Matches right else left.Fits .int ∧ right.Fits .int))
      | .connective _ => inferInstanceAs (Decidable (left.Fits .bool ∧ right.Fits .bool))
      | .mod | .exp | .bitwise _ => .isTrue trivial
  | .assignment _ _ target value => inferInstanceAs (Decidable (target.Matches value))
  | .tuple node [single] false =>
      inferInstanceAs (Decidable ((tuple node [single] false).Matches single))
  | .tuple _ [_] true | .tuple _ [] _ | .tuple _ (_ :: _ :: _) _ | .identifier _ _ none _
  | .literal .. | .call .. | .index .. | .member .. => .isTrue trivial

instance (e : Expr) : Decidable e.ResultFits :=
  match e with
  | .unary node op isBefore operand =>
      match op with
      | .plus => inferInstanceAs (Decidable ((unary node .plus isBefore operand).Matches operand))
      | .minus => inferInstanceAs (Decidable ((unary node .minus isBefore operand).Fits .int))
      | .not | .increment | .decrement | .bitNot | .delete => .isTrue trivial
  | .binary node op left right common =>
      match op with
      | .arithmetic op =>
          inferInstanceAs (Decidable ((binary node (.arithmetic op) left right common).Fits .int))
      | .comparison op =>
          inferInstanceAs (Decidable ((binary node (.comparison op) left right common).Fits .bool))
      | .connective op =>
          inferInstanceAs (Decidable ((binary node (.connective op) left right common).Fits .bool))
      | .mod | .exp | .bitwise _ => .isTrue trivial
  | .assignment node op target value =>
      inferInstanceAs (Decidable ((assignment node op target value).Matches target))
  | .literal .. | .identifier .. | .tuple .. | .call .. | .index .. | .member .. => .isTrue trivial

end Decidable

end Source.Expr

/-- The annotations of a body fit: on the operands and on the results of every node, on nodes of one
number, on conditions, and on what variables are given. -/
structure Uses.Annotated (Γ : Nat → Option Domain) (U : Uses) : Prop where
  operands : ∀ x ∈ U.nodes, x.OperandsFit Γ
  results : ∀ x ∈ U.nodes, x.ResultFits
  shared : ∀ x ∈ U.nodes, ∀ y ∈ U.nodes, x.id = y.id →
    x.termSort.toOption = y.termSort.toOption
  tests : ∀ x ∈ U.tests, x.Fits .bool
  gifts : ∀ p ∈ U.gifts, ∀ domain ∈ Γ p.1, p.2.Fits domain.sort

namespace Draft

/-- A draft of well-sorted terms, whose symbols and variables have the sorts of their nodes and
declarations. -/
structure WellSorted (Γ : Nat → Option Domain) (U : Uses) (d : Draft) : Prop where
  sorts : ∀ x ∈ U.nodes, ∀ sort, d.known.lookup x.id = some sort → x.termSort = .ok sort
  declares : ∀ id v, d.registered? id = some v → Γ id = some v.domain
  path : ∀ t ∈ d.path, t.HasSort .bool
  constraints : ∀ c ∈ d.constraints, c.guard.HasSort .bool ∧ c.fact.HasSort .bool

namespace WellSorted

variable {Γ : Nat → Option Domain} {U : Uses} {d d' : Draft} {e : Expr} {t : Term}

/-- The symbol of a node has the only sort that the node fits. -/
theorem expression (h : d.WellSorted Γ U) (he : U.Has e) (ht : d.expression? e.id = some t) :
    ∃ sort, e.termSort = .ok sort ∧ t.HasSort sort := by
  obtain ⟨sort, hk, rfl⟩ := Option.map_eq_some_iff.1 ht
  exact ⟨sort, h.sorts e he.mem sort hk, Term.hasSort_expression _ sort⟩

theorem fits (h : d.WellSorted Γ U) (he : U.Has e) (ht : d.expression? e.id = some t)
    {sort : TermSort} (hs : e.Fits sort) : t.HasSort sort := by
  obtain ⟨s, hes, ht⟩ := h.expression he ht
  exact hs s hes ▸ ht

theorem version (h : d.WellSorted Γ U) {id k : Nat} (ht : d.term? id k = some t) :
    ∃ domain ∈ Γ id, t.HasSort domain.sort := by
  obtain ⟨v, hv, rfl⟩ := Option.map_eq_some_iff.1 ht
  exact ⟨v.domain, h.declares id v hv, Term.hasSort_version v.toVariable k⟩

/-- An identifier fits the sort of its variable. -/
theorem identifier (hU : U.Annotated Γ) {node : Node} {name : String} {id : Nat} {isTarget : Bool}
    (he : U.Has (.identifier node name (some id) isTarget)) {domain : Domain} (hd : domain ∈ Γ id) :
    Expr.termSort (.identifier node name (some id) isTarget) = .ok domain.sort := by
  have ht : node.ty = domain.ty := hU.operands _ he.mem domain hd
  refine Expr.termSort_of_variableSort ?_
  rw [Expr.ty, Expr.node, ht]
  exact domain.variableSort_ty

/-- The value of a variable that an operation on an identifier moves has the identifier's sort. -/
theorem versionFits (h : d.WellSorted Γ U) (hU : U.Annotated Γ) {node : Node} {name : String}
    {id k : Nat} {isTarget : Bool} (he : U.Has (.identifier node name (some id) isTarget))
    (ht : d.term? id k = some t) {sort : TermSort}
    (hs : Expr.Fits (.identifier node name (some id) isTarget) sort) : t.HasSort sort := by
  obtain ⟨domain, hd, ht⟩ := h.version ht
  exact hs _ (identifier hU he hd) ▸ ht

/-- What an operation gives fits the node of the operation and its variable. -/
theorem assigns (h : d.WellSorted Γ U) (hU : U.Annotated Γ) (he : U.Has e) {id : Nat}
    (ha : Assigns d e id t) :
    (∀ sort, e.termSort = .ok sort → t.HasSort sort) ∧
      ∀ domain ∈ Γ id, t.HasSort domain.sort := by
  have hfit := hU.operands e he.mem
  have hself := hU.results e he.mem
  cases ha with
  | @plain node m name id isTarget value t hm ht =>
    obtain ⟨target, htarget⟩ := hm
    have htarget : Expr.termSort (.identifier m name (some id) isTarget) = .ok target :=
      Expr.termSort_of_variableSort htarget
    obtain ⟨sort, hsort, ht⟩ := h.expression he.value ht
    obtain rfl := hfit sort hsort target htarget
    refine ⟨fun s hs => hself target htarget s hs ▸ ht, fun domain hd => ?_⟩
    exact Except.ok.inj (htarget.symm.trans (identifier hU he.target hd)) ▸ ht
  | @compound node m op name id k isTarget value ty old x hm hold hx =>
    have htarget : Expr.termSort (.identifier m name (some id) isTarget) = .ok .int :=
      Expr.termSort_of_integer hm
    have hold := h.versionFits hU he.target hold (Expr.fits_of_eq htarget)
    obtain ⟨sort, hsort, hx⟩ := h.expression he.value hx
    obtain rfl := hfit sort hsort .int htarget
    have hterm := Term.hasSort_arithmetic op ty hold hx
    refine ⟨fun s hs => hself .int htarget s hs ▸ hterm, fun domain hd => ?_⟩
    exact Except.ok.inj (htarget.symm.trans (identifier hU he.target hd)) ▸ hterm
  | @step node m isUp isBefore isTarget name id k old hn hold =>
    have hoperand := Expr.OperandsFit.step hfit
    have hself :
        Expr.Fits (.unary node (stepOp isUp) isBefore (.identifier m name (some id) isTarget))
          .int :=
      Expr.fits_of_eq (Expr.termSort_of_isSome hn)
    have hterm := hasSort_stepped isUp (h.versionFits hU he.operand hold hoperand)
    refine ⟨fun s hs => (hself s hs).symm ▸ hterm, fun domain hd => ?_⟩
    exact (hoperand _ (identifier hU he.operand hd)).symm ▸ hterm

/-- What a node can be defined as has the sort of its symbol. -/
theorem defines (h : d.WellSorted Γ U) (hU : U.Annotated Γ) (he : U.Has e) {sort : TermSort}
    (hk : d.known.lookup e.id = some sort) (ht : Defines d e t) : t.HasSort sort := by
  have hs : e.termSort = .ok sort := h.sorts e he.mem sort hk
  have hfit := hU.operands e he.mem
  have hself := hU.results e he.mem
  cases ht with
  | bool hn => exact hn sort hs ▸ Term.hasSort_ofBool _
  | number hn => exact hn sort hs ▸ Term.hasSort_ofInt _
  | read ht =>
    obtain ⟨domain, hd, ht⟩ := h.version ht
    obtain rfl := Except.ok.inj (hs.symm.trans (identifier hU he hd))
    exact ht
  | not hn ht =>
    obtain rfl := Except.ok.inj (hs.symm.trans (Expr.termSort_of_isBool hn))
    exact .not (h.fits he.operand ht hfit)
  | plus ht =>
    obtain ⟨s, hx, ht⟩ := h.expression he.operand ht
    exact (hself s hx sort hs).symm ▸ ht
  | minus ht =>
    obtain rfl := hself sort hs
    exact Term.hasSort_neg (h.fits he.operand ht hfit)
  | arithmetic hl hr =>
    obtain rfl := hself sort hs
    exact Term.hasSort_arithmetic _ _ (h.fits he.left hl hfit.1)
      (h.fits he.right hr hfit.2)
  | @comparison node op left right common l r hl hr =>
    obtain rfl := hself sort hs
    rw [Expr.OperandsFit] at hfit
    split at hfit
    · rename_i ho
      obtain ⟨s, hright, hr⟩ := h.expression he.right hr
      exact Term.hasSort_comparison op (h.fits he.left hl (hfit s hright)) hr (by simp [ho])
    · exact Term.hasSort_comparison op (h.fits he.left hl hfit.1) (h.fits he.right hr hfit.2)
        fun _ => rfl
  | connective hl hr =>
    obtain rfl := hself sort hs
    exact Term.hasSort_connective _ (h.fits he.left hl hfit.1)
      (h.fits he.right hr hfit.2)
  | assigned ha => exact (h.assigns hU he ha).1 sort hs
  | @before node m isUp isBefore isTarget name id k t hn ht =>
    obtain rfl := Except.ok.inj (hs.symm.trans (Expr.termSort_of_isSome hn))
    exact h.versionFits hU he.operand ht (Expr.OperandsFit.step hfit)
  | component ht =>
    obtain ⟨s, hx, ht⟩ := h.expression he.component ht
    exact (hfit s hx sort hs).symm ▸ ht

theorem guard (h : d.WellSorted Γ U) (hU : U.Annotated Γ) (ht : Guard U d t) : t.HasSort .bool := by
  induction ht with
  | always => exact Term.hasSort_ofBool true
  | test hn he ht => exact h.fits hn ht (hU.tests _ he)
  | not _ ih => exact .not ih
  | and _ _ iha ihb | or _ _ iha ihb => exact .dyadic rfl iha ihb

theorem gives (h : d.WellSorted Γ U) (hU : U.Annotated Γ) {id : Nat} {v : Registered}
    (hv : d.registered? id = some v) (ht : Gives U d id t) : t.HasSort v.sort := by
  have hd : Γ id = some v.domain := h.declares id v hv
  have hversion : ∀ {k : Nat} {a : Term}, d.term? id k = some a → a.HasSort v.sort := by
    intro k a ha
    obtain ⟨domain, hdomain, ha⟩ := h.version ha
    obtain rfl := Option.some.inj (hd.symm.trans hdomain)
    exact ha
  cases ht with
  | zero hs =>
    rw [sort?, hv] at hs
    exact Option.some.inj hs ▸ Term.hasSort_zero _
  | value hn he ht => exact h.fits hn ht (hU.gifts _ he _ hd)
  | operation he ha => exact (h.assigns hU he ha).2 _ hd
  | version ht => exact hversion ht
  | join hg ha hb => exact .ite (h.guard hU hg) (hversion ha) (hversion hb)

/-- The zero test of a division is a test of an integer. -/
theorem divisor (h : d.WellSorted Γ U) (hU : U.Annotated Γ) (he : U.Has e) {x : Expr}
    (hx : e.divisor? = some x) (ht : d.expression? x.id = some t) : t.HasSort .int := by
  have hfit := hU.operands e he.mem
  unfold Expr.divisor? at hx
  split at hx
  · cases hx
    exact h.fits he.right ht hfit.2
  · rename_i node target value
    split at hx
    · rename_i hty
      cases hx
      obtain ⟨sort, hs, ht⟩ := h.expression he.value ht
      exact (hfit sort hs _ (Expr.termSort_of_isSome hty)).symm ▸ ht
    · cases hx
  · cases hx

/-! ### Steps -/

theorem emitted (h : d.WellSorted Γ U) (ht : t.HasSort .bool) (location : Location) :
    (d.emitted t location).WellSorted Γ U where
  sorts := h.sorts
  declares := h.declares
  path := h.path
  constraints c hc := by
    rcases List.mem_append.1 hc with hc | hc
    · exact h.constraints c hc
    · obtain rfl := List.mem_singleton.1 hc
      exact ⟨forall_pathCondition (Term.hasSort_ofBool true) h.path, ht⟩

theorem advanced (h : d.WellSorted Γ U) (id : Nat) : (d.advanced id).WellSorted Γ U where
  sorts := h.sorts
  declares n v hv := by
    rw [registered?_advanced] at hv
    obtain ⟨w, hw, rfl⟩ := Option.map_eq_some_iff.1 hv
    rw [h.declares n w hw]
    split <;> rfl
  path := h.path
  constraints := h.constraints

/-- A node that shares its number with another gets the sort of both. -/
theorem named (h : d.WellSorted Γ U) (hU : U.Annotated Γ) (he : U.Has e) {sort : TermSort}
    (hs : e.termSort = .ok sort) : (d.named e.id sort).WellSorted Γ U where
  sorts x hx s hk := by
    rw [named_known, List.lookup_cons] at hk
    split at hk
    · rename_i hid
      cases hk
      have hshared := hU.shared x hx e he.mem (beq_iff_eq.1 hid)
      rw [hs] at hshared
      cases hxs : x.termSort with
      | error _ => simp [hxs, Except.toOption] at hshared
      | ok s' =>
        simp only [hxs, Except.toOption, Option.some.injEq] at hshared
        rw [hshared]
    · exact h.sorts x hx s hk
  declares := h.declares
  path := h.path
  constraints := h.constraints

/-- Every step puts terms together that a solver accepts, and gives nodes and variables symbols of
their own sort. -/
theorem step (h : d.WellSorted Γ U) (hU : U.Annotated Γ) (hs : Step U d d') :
    d'.WellSorted Γ U := by
  cases hs with
  | warned => exact ⟨h.sorts, h.declares, h.path, h.constraints⟩
  | named he hk hs => exact h.named hU he hs
  | defined location he hk ht =>
    exact h.emitted (.eq (Term.hasSort_expression _ _) (h.defines hU he hk ht)) location
  | @wrote id v t location hv ht =>
    exact (h.advanced id).emitted
      (.eq (Term.hasSort_version v.toVariable _) (h.gives hU hv ht)) location
  | @forgot id v location hv =>
    exact (h.advanced id).emitted (Variable.hasSort_rangeFact _) location
  | stated location he hb ht =>
    exact h.emitted (h.fits he ht (Expr.fits_of_eq (Expr.termSort_of_isBool hb))) location
  | divided location he hx ht =>
    exact h.emitted (.not (.eq (h.divisor hU he hx ht) (Term.hasSort_ofInt 0))) location
  | opened hc =>
    have hpath := forall_path_pushed (Term.hasSort_ofBool true) (fun _ _ => .dyadic rfl) h.path
      (h.guard hU hc)
    exact ⟨h.sorts, h.declares, hpath, h.constraints⟩
  | closed =>
    exact ⟨h.sorts, h.declares, fun x hx => h.path x (List.mem_of_mem_tail hx), h.constraints⟩

theorem traces (h : d.WellSorted Γ U) (hU : U.Annotated Γ) (ht : Traces U d d') :
    d'.WellSorted Γ U := by
  induction ht with
  | refl => exact h
  | tail _ hs ih => exact ih.step hU hs

theorem term (h : d.WellSorted Γ U) {c : Constraint} (hc : c ∈ d.constraints) :
    c.term.HasSort .bool := by
  obtain ⟨hg, hf⟩ := h.constraints c hc
  unfold Constraint.term
  split
  · exact hf
  · exact .implies hg hf

end WellSorted

variable {contract : Contract} {f : Function} {settings : Settings} {d : Draft}

theorem Opening.wellSorted (h : Opening contract f settings d) (U : Uses) :
    d.WellSorted (domain? contract f) U where
  sorts x _ sort hk := by simp [h.known] at hk
  declares id v hv := by
    rw [domain?, ← h.role? id, hv]
    rfl
  path t ht := by simp [h.path] at ht
  constraints c hc := by
    rw [h.constraints] at hc
    obtain ⟨p, -, hc⟩ := List.mem_filterMap.1 hc
    obtain ⟨v, -, rfl⟩ := Option.map_eq_some_iff.1 hc
    exact ⟨Term.hasSort_ofBool true, Partition.hasSort_startFact _ _⟩

/-- **Well-typed in, well-sorted out.** In a function whose annotations fit, with loops, early
returns and unsupported nodes anywhere, the condition, the fact and the constraint of every
statement are boolean terms, and everything inside them has the sort that is read off it. -/
theorem wellSorted_outcome
    (hU : (Stmt.usesOfAll f.returns f.body).Annotated (domain? contract f))
    (h : (f.analyze settings contract).outcome = .ok d) :
    ∀ c ∈ d.constraints, ∀ t ∈ [c.guard, c.fact, c.term],
      t.HasSort .bool ∧ ∀ u ∈ t.subterms, u.HasSort u.sort := by
  obtain ⟨d₀, d₁, ho, ht, rfl⟩ := exists_traces h
  have hd := (ho.wellSorted _).traces hU ht
  intro c hc t ht
  have hbool : t.HasSort .bool := by
    obtain ⟨hg, hf⟩ := hd.constraints c hc
    simp only [List.mem_cons, List.not_mem_nil, or_false] at ht
    obtain rfl | rfl | rfl := ht
    · exact hg
    · exact hf
    · exact hd.term hc
  exact ⟨hbool, hbool.subterms⟩

/-- A function that halves a number in a loop and may return early from it. Its remainder is not
supported, nor is the step that is made in parentheses. -/
def halving : Function :=
  StateT.run' (m := Id) (do
    let n ← Builder.declaration "n" (.integer ⟨8, false⟩)
    let flag ← Builder.declaration "flag" .bool
    let r ← Builder.declaration "r" (.integer ⟨8, false⟩)
    let rest ← Builder.binary .mod (← Builder.identifier n) (← Builder.number 3)
    let isRound ← Builder.binary (.comparison .eq) rest (← Builder.number 0)
    let isEarly ← Builder.binary (.connective .or) (← Builder.identifier flag) isRound
    let early ← Builder.ret (← Builder.identifier n)
    let half ← Builder.compoundAssign (.arithmetic .div) n (← Builder.number 2)
    let body ← Builder.block [← Builder.branch isEarly early none, ← Builder.expression half]
    let isOpen ← Builder.binary (.comparison .gt) (← Builder.identifier n) (← Builder.number 1)
    let up ← Builder.unary .increment true (← Builder.tuple [← Builder.target n])
    Builder.function "f" [n, flag] [r]
      [← Builder.whileLoop isOpen body, ← Builder.expression up, ← Builder.ret up]) Builder.first

theorem halving_wellSorted :
    ∃ d, (halving.analyze ⟨true, false⟩ ⟨0, "C", {}, [], [halving]⟩).outcome = .ok d ∧
      d.constraints.length = 26 ∧ ∀ c ∈ d.constraints, c.term.HasSort .bool := by
  have hok : (halving.analyze ⟨true, false⟩ ⟨0, "C", {}, [], [halving]⟩).outcome.toOption.map
      (fun d => d.constraints.length) = some 26 := by
    decide +kernel
  cases hd : (halving.analyze ⟨true, false⟩ ⟨0, "C", {}, [], [halving]⟩).outcome with
  | error e =>
    rw [hd] at hok
    cases hok
  | ok d =>
    rw [hd] at hok
    have hU : (Stmt.usesOfAll halving.returns halving.body).Annotated
        (domain? ⟨0, "C", {}, [], [halving]⟩ halving) :=
      ⟨by decide, by decide, by decide, by decide, by decide⟩
    exact ⟨d, rfl, Option.some.inj hok,
      fun c hc => (wellSorted_outcome hU hd c hc c.term (by simp)).1⟩

/-- Two literals of different sorts under one number. -/
def doubled : Function :=
  ⟨0, "f", {}, [], [],
    [.expression {} (.literal ⟨1, {}, .bool⟩ (.bool true)),
      .expression {} (.literal ⟨1, {}, .rational 1⟩ (.number 1))], false, []⟩

/-- A comparison that is annotated with the type of its operands. -/
def mislabelled : Function :=
  ⟨0, "f", {}, [⟨1, "a", .integer ⟨8, false⟩, {}, none⟩], [],
    [.expression {} (.binary ⟨4, {}, .integer ⟨8, false⟩⟩ (.comparison .eq)
      (.identifier ⟨2, {}, .integer ⟨8, false⟩⟩ "a" (some 1) false)
      (.literal ⟨3, {}, .rational 1⟩ (.number 1)) (.integer ⟨8, false⟩))], false, []⟩

/-- The operands of the function fit, and its conditions and what its variables are given, and still
one of its constraints is not well sorted. -/
structure Missorts (f : Function) : Prop where
  operands : ∀ x ∈ Stmt.nodesOfAll f.body, x.OperandsFit (domain? ⟨0, "C", {}, [], [f]⟩ f)
  tests : ∀ x ∈ Stmt.testsOfAll f.body, x.Fits .bool
  gifts : ∀ p ∈ Stmt.giftsOfAll f.returns f.body, ∀ domain ∈ domain? ⟨0, "C", {}, [], [f]⟩ f p.1,
    p.2.Fits domain.sort
  constraint : ∃ d, (f.analyze {} ⟨0, "C", {}, [], [f]⟩).outcome = .ok d ∧
    ∃ c ∈ d.constraints, ¬ c.term.HasSort .bool

/-- The constraint equates terms of different sorts. -/
def equatesSorts (c : Constraint) : Bool :=
  match c.term with
  | .dyadic .eq a b => a.sort ≠ b.sort
  | _ => false

theorem exists_missorted {f : Function}
    (h : (f.analyze {} ⟨0, "C", {}, [], [f]⟩).outcome.toOption.any
      (fun d => d.constraints.any equatesSorts) = true) :
    ∃ d, (f.analyze {} ⟨0, "C", {}, [], [f]⟩).outcome = .ok d ∧
      ∃ c ∈ d.constraints, ¬ c.term.HasSort .bool := by
  cases hd : (f.analyze {} ⟨0, "C", {}, [], [f]⟩).outcome with
  | error e =>
    rw [hd] at h
    cases h
  | ok d =>
    rw [hd] at h
    obtain ⟨c, hc, hsides⟩ := List.any_eq_true.1 h
    refine ⟨d, rfl, c, hc, fun hsort => ?_⟩
    unfold equatesSorts at hsides
    split at hsides
    · rename_i a b heq
      rw [heq] at hsort
      exact of_decide_eq_true hsides (Term.sort_eq_of_hasSort_eq hsort)
    · cases hsides

/-- It is not enough that operands fit, where nodes share a number or results do not fit. -/
theorem doubled_mislabelled_missort : Missorts doubled ∧ Missorts mislabelled :=
  ⟨⟨by decide, by decide, by decide, exists_missorted (by decide +kernel)⟩,
    ⟨by decide, by decide, by decide, exists_missorted (by decide +kernel)⟩⟩

end Draft

end PathFormula
