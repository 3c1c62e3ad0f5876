import PathFormula.Proofs.Divisions
import PathFormula.Proofs.Endings

/-!
# What encodings are composed of

Every operation on a draft, and with it the encoding of every expression and statement, is put
together from a few steps (`Composed`): reading the variables, symbols and path of the draft, the
steps that give out symbols, write variables or emit facts, branches that are closed again, and
divisions. The divisions are read off the tree in the order in which they are encoded
(`Stmt.divisions`). A property of all encodings, failed ones included, is proved by one induction
over these steps.
-/
namespace PathFormula

open Source

/-- An error that an analysis can end with, where values must be known or not. -/
def DraftError.arises (isStrict : Bool) : DraftError → Bool
  | .duplicateDeclaration .. | .unimplementedType .. | .fractionalLiteral .. | .unsupported .. =>
      true
  | .undefinedExpression .. => isStrict
  | .emptyPath | .finalized | .wrongPhase .. => false

namespace Source.Expr

/-- A number literal that is no integer, under a type of numbers. -/
def isFraction : Expr → Bool
  | .literal node (.number n) => n.den ≠ 1 && !node.ty.isBool
  | _ => false

end Source.Expr

namespace Draft

/-- What an encoding may refer to: the expressions whose values it may ask for, those whose values
it may leave open without a word and the variables it may write, where some declarations have
variables. It may open branches of its own unless that is ruled out. -/
structure Mandate where
  nodes : Expr → Prop
  opens : Expr → Prop
  writes : Nat → Prop
  registered : Nat → Bool
  branches : Prop := True

/-- What the operation of an expression needs. -/
structure Mandate.Admits (K : Mandate) (e : Expr) : Prop where
  node : K.nodes e
  fraction : e.isFraction = true → K.opens e
  written : ∀ id ∈ e.written?, K.writes id

/-- What an encoding may depend on, apart from whether values must be known. -/
def view (d : Draft) : Draft :=
  { phase := d.phase, registry := d.registry, known := d.known, path := d.path }

/-- Give a quotient to a variable, if there is one, and to the expression it is the value of. -/
def settle (x : Expr) (place : Option Nat) (value : Term) : Drafting Unit :=
  match place with
  | none => define x value
  | some id => do
      assign id value x.location
      define x value

/-- The computation is put together from steps that keep to a mandate, with some divisions in this
order. -/
inductive Composed (K : Mandate) : {α : Type} → List Expr → Drafting α → Prop
  | pure {α : Type} (a : α) : Composed K [] (pure a)
  | reject {α : Type} {xs : List Expr} {err : DraftError} (h : err.arises false = true) :
      Composed K xs (throw err : Drafting α)
  | bind {α β : Type} {xs ys : List Expr} {x : Drafting α} {f : α → Drafting β}
      (hx : Composed K xs x) (hf : ∀ a, Composed K ys (f a)) : Composed K (xs ++ ys) (x >>= f)
  | read {α : Type} {xs : List Expr} {f : Draft → Drafting α} (hv : ∀ d, f d = f d.view)
      (hf : ∀ d, d.isRegistered = K.registered → Composed K xs (f d)) : Composed K xs (get >>= f)
  | demand : Composed K [] requireEncoding
  | warn (location : Location) (notice : Notice) : Composed K [] (warn location notice)
  | emit (fact : Term) (location : Location) : Composed K [] (emit fact location)
  /-- An expression whose value is asked for may be unknown, with a warning. -/
  | value {α : Type} {xs : List Expr} {e : Expr} {f : Term → Drafting α} (he : K.nodes e)
      (hf : ∀ sort, Composed K xs (f (e.term sort))) : Composed K xs (valueOf e >>= f)
  | define (e : Expr) (t : Term) : Composed K [] (define e t)
  | create {e : Expr} (he : K.opens e) : Composed K [] (create e)
  /-- A value that is left open with a warning. -/
  | announce {e : Expr} (he : K.nodes e) (notice : Notice) :
      Composed K [] (do Draft.warn e.location notice; Draft.create e)
  | write {id : Nat} (hid : K.writes id) (location : Location) (fact : Variable → Term) :
      Composed K [] (write id location fact)
  /-- A branch is closed at its end. -/
  | branch {α : Type} {xs : List Expr} {x : Drafting α} (hb : K.branches) (condition : Term)
      (hx : Composed K xs x) :
      Composed K xs (do pushCondition condition; let a ← x; popPath; Pure.pure a)
  /-- A division by the value of an expression. Its quotient is settled, where the division is
  assigned to a variable that exists. -/
  | divide {x y : Expr} {ty : IntegerType} {l : Term} {sort : TermSort} {place : Option Nat}
      (hy : x.divisor? = some y) (hw : x.written? = place) (hp : ∀ id ∈ place, K.registered id)
      (hf : ∀ q, Composed K [] (settle x place q)) :
      Composed K [x] (arithmetic .div ty l (y.term sort) x.location >>= settle x place)

namespace Composed

variable {α β : Type} {K : Mandate} {xs ys : List Expr} {x : Drafting α} {f : α → Drafting β}

theorem quiet_bind (hx : Composed K [] x) (hf : ∀ a, Composed K ys (f a)) :
    Composed K ys (x >>= f) :=
  hx.bind hf

theorem bind_quiet (hx : Composed K xs x) (hf : ∀ a, Composed K [] (f a)) :
    Composed K xs (x >>= f) := by
  simpa using hx.bind hf

theorem reject_bind {err : DraftError} (h : err.arises false = true) :
    Composed K xs (throw err >>= f) :=
  have hthrow : Composed K xs (throw err : Drafting β) := .reject h
  hthrow

theorem discard (hx : Composed K xs x) : Composed K xs (discard x) :=
  have hbind : Composed K xs (x >>= fun _ => Pure.pure ()) := hx.bind_quiet fun _ => .pure ()
  hbind

theorem forM {as : List α} {f : α → Drafting Unit} (h : ∀ a ∈ as, Composed K [] (f a)) :
    Composed K [] (as.forM f) := by
  induction as with
  | nil => exact .pure ()
  | cons a rest ih =>
    rw [List.forall_mem_cons] at h
    exact h.1.quiet_bind fun _ => ih h.2

/-- What follows a branch. -/
theorem branch_bind {condition : Term} (hb : K.branches) (hx : Composed K xs x)
    (hf : ∀ a, Composed K ys (f a)) :
    Composed K (xs ++ ys) (do pushCondition condition; let a ← x; popPath; f a) := by
  have h := (hx.branch hb condition).bind hf
  simpa only [bind_assoc, pure_bind] using h

end Composed

variable {K : Mandate} {e left right operand target : Expr} {t : Term} {id : Nat}
  {location : Location}

/-! ### Operations -/

theorem composed_valueOf (h : K.nodes e) : Composed K [] (valueOf e) := by
  have hbind : Composed K [] (valueOf e >>= Pure.pure) := .value h fun _ => .pure _
  rwa [bind_pure] at hbind

theorem composed_assign (h : K.writes id) : Composed K [] (assign id t location) := .write h _ _

theorem composed_assignFrom (hid : K.writes id) (he : K.nodes e) :
    Composed K [] (assignFrom id e location) :=
  .value he fun _ => composed_assign hid

theorem composed_forget (h : K.writes id) : Composed K [] (forget id location) := .write h _ _

theorem composed_defineFrom (h : K.nodes operand) : Composed K [] (defineFrom e operand) :=
  .value h fun _ => .define e _

theorem composed_defineFromVariable : Composed K [] (defineFromVariable e id) := by
  refine .read (fun _ => rfl) fun d _ => ?_
  split
  · exact .define e _
  · split <;> exact .warn _ _

theorem composed_assume (h : K.nodes e) : Composed K [] (assume e) := by
  refine Composed.demand.quiet_bind fun _ => ?_
  split
  · exact .value h fun _ => .emit _ _
  · exact .warn _ _

theorem composed_literal {node : Node} {value : Literal} (h : K.Admits (.literal node value)) :
    Composed K [] (literal (.literal node value) value) := by
  have hnumber : ∀ n : Rat, value = .number n → node.ty.isBool = false → Composed K []
      (if n.den = 1 then define (.literal node value) (.ofInt n.num)
        else create (.literal node value)) := by
    rintro n rfl hty
    split
    · exact .define _ _
    · rename_i hn
      exact .create (h.fraction (by simp [Expr.isFraction, hn, hty]))
  unfold literal
  split
  · exact .define _ _
  · rename_i hty
    exact hnumber _ rfl (congrArg Ty.isBool hty)
  · rename_i hty
    exact hnumber _ rfl (congrArg Ty.isBool hty)
  · exact .warn _ _

theorem composed_identifier {name : String} {declaration : Option Nat} {isTarget : Bool} :
    Composed K [] (identifier e name declaration isTarget) := by
  unfold identifier
  split
  · exact .pure ()
  · exact .pure ()
  · split
    · exact composed_defineFromVariable
    · exact .warn _ _

theorem composed_step {isUp isBefore : Bool} (hid : ∀ id ∈ operand.place?, K.writes id) :
    Composed K [] (step e isUp isBefore operand) := by
  unfold step
  dsimp only
  split
  · exact .reject_bind rfl
  · split
    · rename_i declaration _
      refine .read (fun _ => rfl) fun d _ => ?_
      split
      · exact .warn _ _
      · rename_i id old ho
        obtain ⟨i, rfl, hi⟩ := Option.bind_eq_some_iff.1 ho
        obtain ⟨-, -, rfl, rfl⟩ := Option.map_eq_some_iff.1 hi
        exact (composed_assign (hid _ rfl)).quiet_bind fun _ => .define e _
    · exact .warn _ _

theorem composed_unary {node : Node} {op : UnaryOp} {isBefore : Bool}
    (h : K.Admits (.unary node op isBefore operand)) (ho : K.nodes operand) :
    Composed K [] (unary (.unary node op isBefore operand)) := by
  cases op with
  | not =>
    change Composed K [] (if _ then _ else _)
    split
    · exact .reject_bind rfl
    · exact .value ho fun _ => .define _ _
  | increment | decrement => exact composed_step h.written
  | plus => exact composed_defineFrom ho
  | minus => exact .value ho fun _ => .define _ _
  | bitNot | delete => exact .warn _ _

theorem composed_settle {place : Option Nat} (h : ∀ id ∈ place, K.writes id) :
    Composed K [] (settle e place t) := by
  cases place with
  | none => exact .define e t
  | some id => exact (composed_assign (h id rfl)).quiet_bind fun _ => .define e t

theorem composed_binary {node : Node} {op : BinaryOp} {common : Ty} (hl : K.nodes left)
    (hr : K.nodes right) :
    Composed K ([Expr.binary node op left right common].filter (Expr.divides K.registered))
      (binary (.binary node op left right common)) := by
  cases op with
  | arithmetic op =>
    change Composed K _ (binaryArithmetic _ op left right common)
    unfold binaryArithmetic
    split
    · exact .reject rfl
    · refine .value hl fun _ => .value hr fun sort => ?_
      by_cases hop : op = .div
      · subst hop
        have hsettle (q : Term) : Composed K [] (settle (.binary node (.arithmetic .div) left right
            common) none q) := composed_settle (by simp)
        exact .divide rfl rfl (by simp [Expr.written?]) hsettle
      · rw [arithmetic_eq_pure hop]
        rw [Expr.filter_divides_eq_nil _ (by simp [Expr.divisor?, hop])]
        exact .define _ _
  | comparison op =>
    change Composed K [] (comparison _ op left right common)
    unfold comparison
    split
    · exact .warn _ _
    · split
      · exact .reject_bind rfl
      · exact .value hl fun _ => .value hr fun _ => .define _ _
  | connective op =>
    change Composed K [] (connective _ op left right common)
    unfold connective
    split
    · exact .value hl fun _ => .value hr fun _ => .define _ _
    · exact .warn _ _
  | mod | exp | bitwise => exact .warn _ _

theorem composed_tuple {components : List Expr} {isInlineArray : Bool}
    (h : ∀ x ∈ components, K.nodes x) : Composed K [] (tuple e components isInlineArray) := by
  unfold tuple
  split
  · split
    · exact composed_defineFrom (h _ (List.mem_singleton_self _))
    · exact .pure ()
  · exact .warn _ _

theorem composed_announced (h : K.nodes e) (notice : Notice) :
    Composed K [] (do warn e.location notice; leaveOpen e) := by
  unfold leaveOpen
  split
  · exact .announce h notice
  · exact (Composed.warn _ _).quiet_bind fun _ => .pure ()

/-- The quotient of a compound assignment goes to its variable first. -/
theorem composed_compound {op : Arithmetic} {y : Expr} {ty : IntegerType} {sort : TermSort}
    (hid : K.writes id) (hw : e.written? = some id) (hy : op = .div → e.divisor? = some y)
    (hn : op ≠ .div → e.divisor? = none) :
    Composed K ([e].filter (Expr.divides K.registered)) (do
      match ← (do
          match (← get).current? id with
          | none =>
              warn e.location (.unknownDeclaration id)
              Pure.pure none
          | some current =>
              Pure.pure (some (← arithmetic op ty current (y.term sort) e.location))) with
      | none => Pure.pure ()
      | some t => settle e (some id) t) := by
  rw [bind_assoc]
  refine .read (fun _ => rfl) fun d hr => ?_
  cases hc : d.current? id with
  | none =>
    have hregistered : K.registered id = false := by
      rw [← hr, isRegistered, Option.map_eq_none_iff.1 hc]
      rfl
    have hf : [e].filter (Expr.divides K.registered) = [] := by
      simp [Expr.divides, hw, hregistered]
    rw [hf]
    exact (Composed.warn _ _).quiet_bind fun _ => .pure ()
  | some current =>
    have hregistered : K.registered id = true := by
      obtain ⟨v, hv, -⟩ := Option.map_eq_some_iff.1 hc
      rw [← hr, isRegistered, hv]
      rfl
    dsimp only
    rw [bind_assoc]
    simp only [pure_bind]
    have hsettle : ∀ q, Composed K [] (settle e (some id) q) :=
      fun q => composed_settle (by simpa using hid)
    by_cases hop : op = .div
    · subst hop
      have hf : [e].filter (Expr.divides K.registered) = [e] := by
        simp [Expr.divides, hy rfl, hw, hregistered]
      rw [hf]
      exact .divide (hy rfl) hw (by simpa using hregistered) hsettle
    · rw [Expr.filter_divides_eq_nil _ (hn hop), arithmetic_eq_pure hop]
      exact (Composed.pure _).quiet_bind hsettle

theorem composed_assignment {node : Node} {op : AssignOp} {value : Expr}
    (h : K.Admits (.assignment node op target value)) (hv : K.nodes value) :
    Composed K ([Expr.assignment node op target value].filter (Expr.divides K.registered))
      (assignment (.assignment node op target value)) := by
  unfold assignment
  dsimp only
  split
  · rename_i m name id isTarget
    have hid : K.writes id := h.written id rfl
    split
    · rename_i hty
      have hf : [Expr.assignment node op (.identifier m name (some id) isTarget) value].filter
          (Expr.divides K.registered) = [] := by
        refine Expr.filter_divides_eq_nil _ ?_
        have hn : m.ty.integer? = none := by
          cases hm : m.ty with
          | integer _ =>
            simp [Expr.ty, Expr.node, hm, Ty.variableSort, Ty.domain, Except.map] at hty
          | _ => rfl
        cases op with
        | arithmetic op => cases op <;> simp [Expr.divisor?, Expr.ty, Expr.node, hn]
        | _ => rfl
      rw [hf]
      exact .warn _ _
    · refine .value hv fun sort => ?_
      unfold assignedValue
      split
      · rw [Expr.filter_divides_eq_nil _ rfl]
        change Composed K [] (settle _ (some id) _)
        exact composed_settle (by simpa using hid)
      · split
        · exact .reject_bind rfl
        · rename_i aop _ ty hty
          refine composed_compound (y := value) hid rfl ?_ fun hop => ?_
          · rintro rfl
            simp [Expr.divisor?, hty]
          · cases aop with
            | div => exact absurd rfl hop
            | _ => rfl
      · exact .reject_bind rfl
      · exact .reject_bind rfl
  · exact .reject rfl

/-- Performing the operation of an expression. -/
theorem composed_operate (h : K.Admits e) (hp : ∀ x ∈ e.visitedParts, K.nodes x) :
    Composed K ([e].filter (Expr.divides K.registered)) e.operate := by
  cases e with
  | literal node value => exact composed_literal h
  | identifier node name declaration isTarget => exact composed_identifier
  | unary node op isBefore operand => exact composed_unary h (hp _ (by simp [Expr.visitedParts]))
  | binary node op left right common =>
    exact composed_binary (hp _ (by simp [Expr.visitedParts])) (hp _ (by simp [Expr.visitedParts]))
  | assignment node op target value =>
    exact composed_assignment h (hp _ (by simp [Expr.visitedParts]))
  | tuple node components isInlineArray => exact composed_tuple hp
  | call node callee arguments =>
    rw [Expr.filter_divides_eq_nil _ rfl, Expr.operate]
    rw [Expr.visitedParts] at hp
    split
    · rename_i ha
      cases arguments with
      | nil => exact .warn _ _
      | cons condition rest => exact composed_assume (hp _ (by simp [ha]))
    · exact composed_announced h.node _
  | index node base position => exact composed_announced h.node _
  | member node base name => exact composed_announced h.node _

/-! ### Expressions -/

theorem composed_encodeAll {es : List Expr}
    (h : ∀ x ∈ es, Composed K (x.divisions K.registered) x.encode) :
    Composed K (Expr.divisionsOfAll K.registered es) (Expr.encodeAll es) := by
  induction es with
  | nil => exact .pure ()
  | cons x rest ih =>
    rw [List.forall_mem_cons] at h
    exact h.1.bind fun _ => ih h.2

theorem composed_encode (h : ∀ x ∈ e.nodes, K.Admits x) :
    Composed K (e.divisions K.registered) e.encode := by
  induction e using Expr.visitedParts_induction with
  | h e ih =>
    have hsub : ∀ x ∈ e.visitedParts, x.nodes ⊆ e.nodes := fun x hx =>
      Expr.nodes_subset_of_mem_children (e.visitedParts_subset_children hx)
    rw [Expr.encode_eq, Expr.divisions_eq]
    refine (composed_encodeAll fun x hx => ih x hx fun y hy => h y (hsub x hx hy)).bind fun _ => ?_
    refine composed_operate (h e e.mem_nodes_self) fun x hx => ?_
    exact (h x (hsub x hx x.mem_nodes_self)).node

/-! ### Statements -/

section Statements

variable {returns : List Declaration} {α β : Type} {xs ys : List Expr}

theorem composed_encodeOptional {e : Option Expr} (h : ∀ x ∈ Stmt.nodesOfExpr e, K.Admits x) :
    Composed K (Stmt.divisionsOfExpr K.registered e) (Stmt.encodeOptional e) := by
  cases e with
  | none => exact .pure ()
  | some e => exact composed_encode h

/-- What follows a branch that an expression opens. -/
theorem Composed.pushPath_bind {x : Drafting α} {f : α → Drafting β} (hb : K.branches)
    (sign : Bool) (he : K.nodes e) (hx : Composed K xs x) (hf : ∀ a, Composed K ys (f a)) :
    Composed K (xs ++ ys) (do pushPath e sign; let a ← x; popPath; f a) := by
  unfold pushPath
  rw [bind_assoc]
  exact .value he fun _ => hx.branch_bind hb hf

section Writes

variable (hw : ∀ id, K.writes id)
include hw

theorem composed_forgetAll {ids : List Nat} : Composed K [] (forgetAll ids location) := by
  refine .forM fun id _ => .read (fun _ => rfl) fun d _ => ?_
  split
  · exact composed_forget (hw id)
  · exact .pure ()

theorem composed_restore {before yes : Versions} : Composed K [] (restore before yes location) := by
  refine .forM fun ⟨id, version⟩ _ => ?_
  dsimp only
  split
  · refine .read (fun _ => rfl) fun d _ => ?_
    split
    · exact composed_assign (hw id)
    · exact .pure ()
  · exact .pure ()

theorem composed_mergeVersions {guard : Term} {before yes no : Versions} :
    Composed K [] (mergeVersions guard before yes no location) := by
  refine .forM fun ⟨id, version⟩ _ => ?_
  dsimp only
  split
  · exact .pure ()
  · refine .read (fun _ => rfl) fun d _ => ?_
    split
    · exact composed_assign (hw id)
    · exact .pure ()

theorem composed_giveInitial {declarations : List Declaration} {initial : Option Expr}
    (h : ∀ x ∈ initial, K.nodes x) :
    Composed K [] (Stmt.giveInitial location declarations initial) := by
  unfold Stmt.giveInitial
  split
  · refine .read (fun _ => rfl) fun d _ => ?_
    split
    · exact .pure ()
    · split
      · exact composed_assignFrom (hw _) (h _ rfl)
      · exact composed_assign (hw _)
  · refine (Composed.warn _ _).quiet_bind fun _ => .forM fun declaration _ => ?_
    refine .read (fun _ => rfl) fun d _ => ?_
    split
    · exact composed_forget (hw _)
    · exact .pure ()

theorem composed_declare {declarations : List Declaration} {initial : Option Expr}
    (h : ∀ x ∈ Stmt.nodesOfExpr initial, K.Admits x) :
    Composed K (Stmt.divisionsOfExpr K.registered initial)
      (declare location declarations initial) := by
  rw [Stmt.declare_eq]
  refine (composed_encodeOptional h).bind_quiet fun _ => composed_giveInitial hw ?_
  rintro e rfl
  exact (h e e.mem_nodes_self).node

theorem composed_giveBack (he : K.nodes e) : Composed K [] (giveBack location returns e) := by
  unfold giveBack
  split
  · refine .read (fun _ => rfl) fun d _ => ?_
    split
    · exact composed_assignFrom (hw _) he
    · exact .pure ()
  · exact .warn _ _

theorem composed_ret {value : Option Expr} (h : ∀ x ∈ Stmt.nodesOfExpr value, K.Admits x) :
    Composed K (Stmt.divisionsOfExpr K.registered value)
      ((Stmt.ret location value).encode returns) := by
  cases value with
  | none => exact .read (fun _ => rfl) fun d _ => .pure _
  | some e =>
    refine (composed_encode h).bind_quiet fun _ => ?_
    refine (composed_giveBack hw (h e e.mem_nodes_self).node).quiet_bind fun _ => ?_
    exact .read (fun _ => rfl) fun d _ => .pure _

/-! ### Forms of statements -/

section Branches

variable (hk : K.branches)
include hk

theorem composed_encodeElse {condition : Expr} {before afterYes : Versions} {no : Option Stmt}
    (hc : K.nodes condition)
    (hn : ∀ s ∈ no, Composed K (s.divisions K.registered) (s.encode returns)) :
    Composed K (Stmt.divisionsOfOption K.registered no)
      (Stmt.encodeElse returns location condition before afterYes no) := by
  cases no with
  | none => exact .pure []
  | some no =>
    have hr : Composed K (no.divisions K.registered) (do
        restore before afterYes location
        no.encode returns) := (composed_restore hw).quiet_bind fun _ => hn no rfl
    have hb := Composed.pushPath_bind hk false hc hr fun exits => .pure exits
    simp only [bind_assoc, List.append_nil] at hb
    exact hb

theorem composed_branch {condition : Expr} {yes : Stmt} {no : Option Stmt}
    (hc : ∀ x ∈ condition.nodes, K.Admits x)
    (hy : Composed K (yes.divisions K.registered) (yes.encode returns))
    (hn : ∀ s ∈ no, Composed K (s.divisions K.registered) (s.encode returns)) :
    Composed K ((Stmt.branch location condition yes no).divisions K.registered)
      ((Stmt.branch location condition yes no).encode returns) := by
  have hnode := (hc condition condition.mem_nodes_self).node
  rw [Stmt.encode_branch]
  refine (composed_encode hc).bind fun _ => .value hnode fun sort => ?_
  refine .read (fun _ => rfl) fun d _ => ?_
  refine .pushPath_bind hk true hnode hy fun yesExits => .read (fun _ => rfl) fun d₁ _ => ?_
  refine (composed_encodeElse hw hk hnode hn).bind_quiet fun noExits => ?_
  refine .read (fun _ => rfl) fun d₂ _ => ?_
  exact (composed_mergeVersions hw).quiet_bind fun _ => .pure _

/-- The one turn that is encoded of a loop. -/
theorem composed_turn {written : List Nat} {body : Stmt} (condition step : Option Expr)
    (hc : ∀ x ∈ Stmt.nodesOfExpr condition, K.Admits x)
    (hs : ∀ x ∈ Stmt.nodesOfExpr step, K.Admits x)
    (hb : Composed K (body.divisions K.registered) (body.encode returns)) :
    Composed K (Stmt.divisionsOfExpr K.registered condition
        ++ (body.divisions K.registered ++ Stmt.divisionsOfExpr K.registered step))
      (Stmt.encodeTurn returns location written condition step body) := by
  unfold Stmt.encodeTurn
  refine (Composed.warn _ _).quiet_bind fun _ => (composed_forgetAll hw).quiet_bind fun _ => ?_
  have hend : ∀ exits : List Term, Composed K [] (do
      forgetAll written location
      return exits) := fun exits => (composed_forgetAll hw).quiet_bind fun _ => .pure exits
  cases condition with
  | none =>
    refine (Composed.pure ()).quiet_bind fun _ => hb.bind fun exits => ?_
    refine (composed_encodeOptional hs).bind_quiet fun _ => ?_
    exact (Composed.pure ()).quiet_bind fun _ => hend exits
  | some condition =>
    have hnode := (hc condition condition.mem_nodes_self).node
    have hinner : Composed K (body.divisions K.registered ++ Stmt.divisionsOfExpr K.registered step)
        (do
          let exits ← body.encode returns
          Stmt.encodeOptional step
          Pure.pure exits) :=
      hb.bind fun exits => (composed_encodeOptional hs).bind_quiet fun _ => .pure exits
    have hpath := Composed.pushPath_bind hk true hnode hinner hend
    simp only [bind_assoc, pure_bind, List.append_nil] at hpath
    have hwhole := (composed_encode hc).bind fun _ => hpath
    unfold Stmt.enter
    simp only [bind_assoc]
    exact hwhole

end Branches

end Writes

mutual

/-- Every statement is composed of steps, with its divisions in the order of encoding. -/
theorem composed_stmt (hw : ∀ id, K.writes id) (hk : K.branches) (s : Stmt)
    (h : ∀ x ∈ s.nodes, K.Admits x) :
    Composed K (s.divisions K.registered) (s.encode returns) := by
  cases s with
  | block _ body => exact composed_body hw hk body h
  | declare _ declarations initial => exact (composed_declare hw h).bind_quiet fun _ => .pure []
  | expression _ e => exact (composed_encode h).bind_quiet fun _ => .pure []
  | branch _ condition yes no =>
    simp only [Stmt.nodes, List.forall_mem_append] at h
    obtain ⟨hc, hy, hn⟩ := h
    refine composed_branch hw hk hc (composed_stmt hw hk yes hy) fun s hs => ?_
    cases no with
    | none => cases hs
    | some no => exact Option.some.inj hs ▸ composed_stmt hw hk no hn
  | whileLoop location condition body isBodyFirst =>
    simp only [Stmt.nodes, List.forall_mem_append] at h
    obtain ⟨hc, hb⟩ := h
    have hbody := composed_stmt hw hk body hb
    rw [Stmt.encode_whileLoop]
    have hnone : ∀ x ∈ Stmt.nodesOfExpr none, K.Admits x := by simp [Stmt.nodesOfExpr]
    cases isBodyFirst with
    | true => exact composed_turn hw hk none (some condition) hnone hc hbody
    | false =>
      rw [show (Stmt.whileLoop location condition body false).divisions K.registered =
        Stmt.divisionsOfExpr K.registered (some condition) ++ (body.divisions K.registered ++
          Stmt.divisionsOfExpr K.registered none) by simp [Stmt.divisions, Stmt.divisionsOfExpr]]
      exact composed_turn hw hk (some condition) none hc hnone hbody
  | forLoop _ first condition step body =>
    simp only [Stmt.nodes, List.forall_mem_append] at h
    obtain ⟨hf, hc, hb, hs⟩ := h
    rw [Stmt.encode_forLoop]
    have hstart : Composed K (Stmt.divisionsOfOption K.registered first)
        (Stmt.start returns first) := by
      cases first with
      | none => exact .pure []
      | some first => exact composed_stmt hw hk first hf
    refine hstart.bind fun startExits => ?_
    have hbody := composed_stmt hw hk body hb
    exact (composed_turn hw hk _ _ hc hs hbody).bind_quiet fun exits => .pure _
  | ret _ value => exact composed_ret hw h

theorem composed_body (hw : ∀ id, K.writes id) (hk : K.branches) (body : List Stmt)
    (h : ∀ x ∈ Stmt.nodesOfAll body, K.Admits x) :
    Composed K (Stmt.divisionsOfAll K.registered body) (Stmt.encodeAll returns body) := by
  cases body with
  | nil => exact .pure []
  | cons s rest =>
    simp only [Stmt.nodesOfAll, List.forall_mem_append] at h
    obtain ⟨hs, hr⟩ := h
    have hrest := composed_body hw hk rest hr
    refine (composed_stmt hw hk s hs).bind fun exits => ?_
    split
    · exact hrest
    · rename_i taken _
      refine .read (fun _ => rfl) fun d _ => ?_
      have hmerge : ∀ later : List Term, Composed K [] (do
          mergeVersions (.not taken) d.versions (← get).versions d.versions s.location
          return exits ++ later) := fun later =>
        .read (fun _ => rfl) fun d₁ _ => (composed_mergeVersions hw).quiet_bind fun _ => .pure _
      simpa using hrest.branch_bind hk hmerge

end

end Statements

/-! ### What changes -/

section Changes

variable {α : Type} {xs : List Expr} {x : Drafting α} {d d₁ d' : Draft}

/-- A relation between drafts and later ones that allows every change within a mandate. -/
structure Mandate.Allows (K : Mandate) (R : Draft → Draft → Prop) : Prop where
  later {d d' : Draft} : R d d' → Later d d'
  refl (d : Draft) : R d d
  trans {d d₁ d' : Draft} : R d d₁ → R d₁ d' → R d d'
  warned (d : Draft) (location : Location) (notice : Notice) : R d (d.warned location notice)
  emitted (d : Draft) (fact : Term) (location : Location) : R d (d.emitted fact location)
  named {d : Draft} {id : Nat} (sort : TermSort) : d.known.lookup id = none → R d (d.named id sort)
  advanced (d : Draft) {id : Nat} : K.writes id → R d (d.advanced id)
  withPath (d : Draft) (path : List Term) : K.branches → R d { d with path }

/-- What comes first is allowed for too. -/
theorem Mandate.Allows.after {R : Draft → Draft → Prop} (hR : K.Allows R) (hd : R d d₁)
    (hp : d₁.path = d.path)
    (h : Ends x d₁ (fun _ d' => R d₁ d' ∧ d'.path = d₁.path) fun _ d' => R d₁ d') :
    Ends x d₁ (fun _ d' => R d d' ∧ d'.path = d.path) fun _ d' => R d d' :=
  h.mono (fun _ _ _ h₁ => ⟨hR.trans hd h₁.1, h₁.2.trans hp⟩) fun _ _ => hR.trans hd

/-- A composed computation only makes changes within its mandate, whether it succeeds or not. If it
succeeds, it has put the path back. -/
theorem Composed.changes {R : Draft → Draft → Prop} (hR : K.Allows R) (h : Composed K xs x)
    (hr : d.isRegistered = K.registered) :
    Ends x d (fun _ d' => R d d' ∧ d'.path = d.path) fun _ d' => R d d' := by
  induction h generalizing d with
  | pure a => exact ⟨hR.refl d, rfl⟩
  | reject h => exact hR.refl d
  | bind _ _ ihx ihf =>
    refine (ihx hr).bind fun a d₁ _ h₁ => ?_
    exact hR.after h₁.1 h₁.2 (ihf a ((hR.later h₁.1).isRegistered_eq.trans hr))
  | read hv _ ih => exact ih d hr hr
  | demand => exact .requireEncoding (fun _ => ⟨hR.refl d, rfl⟩) fun _ => hR.refl d
  | warn location notice => exact ⟨hR.warned d _ _, rfl⟩
  | emit fact location => exact ⟨hR.emitted d _ _, rfl⟩
  | @value _ _ e _ he hf ih =>
    refine ends_bind.2 (.valueOf (fun sort _ => ih sort hr) (fun _ _ => hR.refl d)
      (fun sort hk _ _ _ => ?_) (fun _ _ _ _ _ => hR.warned d _ _) fun _ _ _ => hR.warned d _ _)
    have hn := hR.trans (hR.warned d e.location .undefinedExpression) (hR.named sort hk)
    exact hR.after hn rfl (ih sort hr)
  | define e t =>
    exact .define (fun _ _ _ => ⟨hR.emitted d _ _, rfl⟩)
      (fun sort _ hk _ => ⟨hR.trans (hR.named sort hk) (hR.emitted _ _ _), rfl⟩)
      (fun _ _ _ _ => hR.refl d) fun _ => hR.refl d
  | create he =>
    exact .create (fun _ _ _ => ⟨hR.warned d _ _, rfl⟩) (fun sort _ hk _ => ⟨hR.named sort hk, rfl⟩)
      (fun _ _ _ _ => hR.refl d) fun _ => hR.refl d
  | @announce e he notice =>
    have hw := hR.warned d e.location notice
    exact ends_warn_bind.2 (.create (fun _ _ _ => ⟨hR.trans hw (hR.warned _ _ _), rfl⟩)
      (fun sort _ hk _ => ⟨hR.trans hw (hR.named sort hk), rfl⟩) (fun _ _ _ _ => hw) fun _ => hw)
  | write hid location fact =>
    exact .write (fun _ _ => ⟨hR.warned d _ _, rfl⟩)
      (fun _ _ _ => ⟨hR.trans (hR.advanced d hid) (hR.emitted _ _ _), rfl⟩) fun _ => hR.refl d
  | branch hb condition hx ih =>
    have hp : R d (d.pushed condition) := hR.withPath d _ hb
    have hx := (ih (d := d.pushed condition) hr).mono (fun _ _ _ h => h) fun _ _ => hR.trans hp
    refine ends_pushCondition_bind.2 (hx.bind fun a d₁ _ h₁ => ?_)
    refine .popPath_bind (by rw [h₁.2]; exact List.cons_ne_nil _ _) ⟨?_, ?_⟩
    · exact hR.trans hp (hR.trans h₁.1 (hR.withPath d₁ _ hb))
    · rw [popped, h₁.2]
      rfl
  | divide _ _ _ _ ih =>
    refine .arithmetic_div_bind ?_
    split
    · exact hR.after (hR.emitted d _ _) rfl (ih _ hr)
    · exact ih _ hr

theorem allows_later : K.Allows Later where
  later h := h
  refl := .refl
  trans := .trans
  warned _ _ _ := .warned
  emitted _ _ _ := .emitted
  named _ := .named
  advanced _ _ _ := .advanced
  withPath _ _ _ := .withPath

theorem Composed.later {a : α} (h : Composed K xs x) (hr : d.isRegistered = K.registered)
    (hy : Yields x d a d') : Later d d' :=
  ((h.changes allows_later hr).of_yields hy).1

theorem Composed.isRegistered {a : α} (h : Composed K xs x) (hr : d.isRegistered = K.registered)
    (hy : Yields x d a d') : d'.isRegistered = K.registered :=
  (h.later hr hy).isRegistered_eq.trans hr

end Changes

end Draft

end PathFormula
