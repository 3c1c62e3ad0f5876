import Mathlib.Control.Traversable.Instances
import Mathlib.Logic.Relation
import PathFormula.Proofs.Opening
import PathFormula.Proofs.Reads
import PathFormula.Proofs.Visits
import PathFormula.Source.Builder

/-!
# Writes

The operation of a node is performed after the parts that the encoder visits were encoded
(`Expr.encode_eq`), so that everything that is visited in an expression is performed somewhere
inside its encoding (`exists_operate`). Assignments and steps then move the variable that they write
to a newer version, or say in a warning that they are not supported, and what is read later is newer
(`visited_writes_settle`). Not everything is visited: the encoder passes over what stands inside an
index or a member access, the callee of a call and what an assertion is given besides its condition.
Writes there, as in `require(true, x++)` or `a[x++]`, are lost without a warning of their own.
-/
namespace PathFormula

open Source

namespace Source.Expr

/-- The parts of an expression that the encoder visits, in order. -/
def visitedParts : Expr → List Expr
  | .literal .. | .identifier .. | .index .. | .member .. => []
  | .unary _ _ _ operand => [operand]
  | .binary _ _ left right _ => [left, right]
  | .assignment _ _ target value => [value, target]
  | .tuple _ components _ => components
  | .call node callee arguments =>
      if (call node callee arguments).isAssertion then arguments.take 1 else arguments

/-- What is left of a call to `require` or `assert` once its condition was encoded. -/
def assumeFirst (node : Node) : List Expr → Drafting Unit
  | [] => Draft.warn node.location .missingCondition
  | condition :: _ => Draft.assume condition

/-- The operation of a node itself. -/
def operate : Expr → Drafting Unit
  | .literal node value => Draft.literal (.literal node value) value
  | .identifier node name declaration isTarget =>
      Draft.identifier (.identifier node name declaration isTarget) name declaration isTarget
  | .unary node op isBefore operand => Draft.unary (.unary node op isBefore operand)
  | .binary node op left right common => Draft.binary (.binary node op left right common)
  | .assignment node op target value => Draft.assignment (.assignment node op target value)
  | .tuple node components isInlineArray =>
      Draft.tuple (.tuple node components isInlineArray) components isInlineArray
  | .call node callee arguments =>
      if (call node callee arguments).isAssertion then assumeFirst node arguments
      else do
        Draft.warn node.location .call
        Draft.leaveOpen (.call node callee arguments)
  | .index node base position => do
      Draft.warn node.location .indexAccess
      Draft.leaveOpen (.index node base position)
  | .member node base name => do
      Draft.warn node.location .memberAccess
      Draft.leaveOpen (.member node base name)

/-- The encoder comes to an expression where it encodes another one. -/
def Visits : Expr → Expr → Prop := Relation.ReflTransGen fun e x => x ∈ e.visitedParts

/-- The variable that an expression stands for, in parentheses or not. -/
def place? : Expr → Option Nat
  | .identifier _ _ declaration _ => declaration
  | .tuple _ [single] false => single.place?
  | _ => none

/-- The variable that an operation writes. -/
def written? : Expr → Option Nat
  | .assignment _ _ target _ => target.place?
  | .unary _ .increment _ operand | .unary _ .decrement _ operand
  | .unary _ .delete _ operand => operand.place?
  | _ => none

def isIdentifier : Expr → Bool
  | .identifier .. => true
  | _ => false

/-- What is said of a write that is not supported. -/
def skipNotice? : Expr → Option Notice
  | .unary _ .delete _ _ => some (.operator UnaryOp.delete.text)
  | .unary _ .increment _ operand | .unary _ .decrement _ operand =>
      if operand.isIdentifier then none else some .stepOperand
  | .assignment _ _ (.identifier m _ (some _) _) _ =>
      match m.ty.variableSort with
      | .error _ => some (.assignmentTo m.ty)
      | .ok _ => none
  | _ => none

theorem encodeAll_one (e : Expr) : encodeAll [e] = e.encode :=
  bind_pure_unit

/-- An expression is encoded by encoding its parts and then performing its own operation. -/
theorem encode_eq (e : Expr) : e.encode = (do encodeAll e.visitedParts; e.operate) := by
  cases e with
  | literal | identifier | index | member => rfl
  | unary node op isBefore operand => rw [visitedParts, encodeAll_one]; rfl
  | binary node op left right common =>
    simp only [visitedParts, encode, operate, encodeAll, bind_assoc, pure_bind]
  | assignment node op target value =>
    simp only [visitedParts, encode, operate, encodeAll, bind_assoc, pure_bind]
  | tuple node components isInlineArray => rfl
  | call node callee arguments =>
    have hassert : (call node callee arguments).isAssertion = true →
        encodeAssertion node arguments =
          (do encodeAll (call node callee arguments).visitedParts
              (call node callee arguments).operate) := by
      intro ha
      rw [visitedParts, operate, if_pos ha, if_pos ha]
      cases arguments with
      | nil => rfl
      | cons condition rest => rw [List.take_succ_cons, List.take_zero, encodeAll_one]; rfl
    unfold encode
    split
    · rename_i hty
      exact hassert (by simp [isAssertion, hty])
    · rename_i hty
      exact hassert (by simp [isAssertion, hty])
    · rename_i hr ha
      have hn : (call node callee arguments).isAssertion = false := by
        simp only [isAssertion, decide_eq_false_iff_not]
        rintro (hty | hty) <;> contradiction
      rw [visitedParts, operate, hn]
      rfl

end Source.Expr

namespace Draft

variable {d d' : Draft} {e x : Expr} {u : Unit} {id : Nat} {v : Registered}

theorem continues_leaveOpen (h : Yields (leaveOpen e) d u d') : Continues d d' :=
  have he : Emits (fun _ => False) [] d d' := emits_leaveOpen h
  he.toContinues

theorem continues_operate (h : Yields e.operate d u d') : Continues d d' := by
  have hwarned {location : Location} {notice : Notice} :
      Continues d (d.warned location notice) :=
    ⟨.warned, rfl⟩
  have hquiet : ∀ {ds : List Demand}, Emits (fun _ => True) ds d d' → Continues d d' :=
    fun he => he.toContinues
  cases e with
  | literal node value => exact hquiet (emits_literal h)
  | identifier node name declaration isTarget => exact hquiet (emits_identifier h)
  | unary node op isBefore operand => exact (emits_unary h).toContinues
  | binary node op left right common => exact hquiet (emits_binary h)
  | assignment node op target value => exact (emits_assignment h).toContinues
  | tuple node components isInlineArray => exact hquiet (emits_tuple h)
  | call node callee arguments =>
    rw [Expr.operate] at h
    split at h
    · cases arguments with
      | nil =>
        obtain rfl := yields_warn.1 h
        exact hwarned
      | cons condition rest => exact hquiet (emits_assume h)
    · exact hwarned.trans (continues_leaveOpen h)
  | index node base position => exact hwarned.trans (continues_leaveOpen h)
  | member node base name => exact hwarned.trans (continues_leaveOpen h)

theorem exists_encode_of_mem {es : List Expr} (hx : x ∈ es)
    (h : Yields (Expr.encodeAll es) d u d') :
    ∃ d₁ d₂, Continues d d₁ ∧ Yields x.encode d₁ () d₂ ∧ Continues d₂ d' := by
  induction es generalizing d with
  | nil => cases hx
  | cons a rest ih =>
    obtain ⟨d₁, ha, hr⟩ := yields_seq.1 h
    rcases List.mem_cons.1 hx with rfl | hx
    · exact ⟨d, d₁, .refl d, ha, (Expr.emits_encodeAll rest hr).toContinues⟩
    · obtain ⟨d₂, d₃, h₁, h₂, h₃⟩ := ih hx hr
      exact ⟨d₂, d₃, (continues_encode ha).trans h₁, h₂, h₃⟩

/-- All that is visited in an expression is encoded where the expression is. -/
theorem exists_encode (hx : e.Visits x) (h : Yields e.encode d () d') :
    ∃ d₁ d₂, Continues d d₁ ∧ Yields x.encode d₁ () d₂ ∧ Continues d₂ d' := by
  induction hx with
  | refl => exact ⟨d, d', .refl d, h, .refl d'⟩
  | tail _ hx ih =>
    obtain ⟨d₁, d₄, hb, hy, ha⟩ := ih
    rw [Expr.encode_eq] at hy
    obtain ⟨d₅, hp, ho⟩ := yields_seq.1 hy
    obtain ⟨d₂, d₃, h₁, h₂, h₃⟩ := exists_encode_of_mem hx hp
    exact ⟨d₂, d₃, hb.trans h₁, h₂, h₃.trans ((continues_operate ho).trans ha)⟩

/-- So is its operation performed. -/
theorem exists_operate (hx : e.Visits x) (h : Yields e.encode d () d') :
    ∃ d₁ d₂, Continues d d₁ ∧ Yields x.operate d₁ () d₂ ∧ Continues d₂ d' := by
  obtain ⟨d₁, d₂, hb, hy, ha⟩ := exists_encode hx h
  rw [Expr.encode_eq] at hy
  obtain ⟨d₃, hp, ho⟩ := yields_seq.1 hy
  exact ⟨d₃, d₂, hb.trans (Expr.emits_encodeAll _ hp).toContinues, ho, ha⟩

/-! ### Writing operations -/

theorem eq_warned_of_step {isUp isBefore : Bool} {operand : Expr}
    (ho : operand.isIdentifier = false) (h : Yields (step e isUp isBefore operand) d u d') :
    d' = d.warned e.location .stepOperand := by
  obtain ⟨ty, hty⟩ := Option.isSome_iff_exists.1 (yields_step h).1
  unfold step at h
  cases operand with
  | identifier => cases ho
  | _ => simpa [hty] using h

/-- A write that is not supported adds its warning and nothing else. -/
theorem eq_warned_of_skipNotice? {notice : Notice} (hs : x.skipNotice? = some notice)
    (h : Yields x.operate d u d') : d' = d.warned x.location notice := by
  cases x with
  | unary node op isBefore operand =>
    have hstep : ∀ {isUp : Bool}, (if operand.isIdentifier then none else some Notice.stepOperand) =
        some notice →
        Yields (step (.unary node op isBefore operand) isUp isBefore operand) d u d' →
          d' = d.warned node.location notice := by
      intro isUp hs h
      split at hs
      · cases hs
      · rename_i ho
        cases hs
        exact eq_warned_of_step (Bool.eq_false_iff.2 ho) h
    cases op with
    | delete =>
      cases hs
      exact yields_warn.1 h
    | increment | decrement => exact hstep hs h
    | _ => cases hs
  | assignment node op target value =>
    obtain ⟨m, name, id, isTarget, rfl⟩ := exists_of_yields_assignment h
    obtain ⟨⟨err, hty⟩, rfl⟩ | ⟨⟨sort, hty⟩, -⟩ := yields_assignment.1 h
    · simp only [Expr.skipNotice?, hty, Option.some.injEq] at hs
      exact hs ▸ rfl
    · simp [Expr.skipNotice?, hty] at hs
  | _ => cases hs

theorem outruns_of_assign {t : Term} {location : Location} (hv : d.registered? id = some v)
    (h : Yields (assign id t location) d u d') : d'.Outruns v := by
  obtain rfl := id_of_registered? hv
  obtain ⟨-, ⟨hn, -⟩ | ⟨w, -, rfl⟩⟩ := yields_assign.1 h
  · rw [hv] at hn
    cases hn
  · refine ⟨0, ?_⟩
    change (d.advanced v.id).registered? v.id = _
    rw [registered?_advanced, hv]
    simp

theorem later_define {t : Term} (h : Yields (define e t) d u d') : Later d d' :=
  have he : Emits (fun _ => False) [] d d' := emits_define h
  he.later

theorem outruns_of_step {isUp isBefore : Bool} {operand : Expr} (hi : operand.isIdentifier)
    (hw : operand.place? = some id) (hv : d.registered? id = some v)
    (h : Yields (step e isUp isBefore operand) d u d') : d'.Outruns v := by
  cases operand with
  | identifier m name declaration isTarget =>
    obtain rfl : declaration = some id := hw
    obtain ⟨-, d₁, ha, hd⟩ := (yields_step_identifier hv).1 h
    exact (outruns_of_assign hv ha).later (later_define hd)
  | _ => cases hi

/-- The value of an assignment is only missing where the variable is. -/
theorem exists_of_yields_assignedValue {target : Expr} {op : AssignOp} {t : Term} {r : Option Term}
    (hv : d.registered? id = some v) (h : Yields (assignedValue e target op id t) d r d') :
    (∃ new, r = some new) ∧ Later d d' := by
  obtain ⟨-, rfl, rfl⟩ | ⟨aop, ty, -, -, ⟨hn, -⟩ | ⟨w, new, -, rfl, ha⟩⟩ :=
    yields_assignedValue.1 h
  · exact ⟨⟨t, rfl⟩, .refl d'⟩
  · rw [hv] at hn
    cases hn
  · obtain ⟨-, rfl⟩ := yields_arithmetic.1 ha
    refine ⟨⟨new, rfl⟩, ?_⟩
    split
    · exact .emitted
    · exact .refl d

/-- A supported write moves its variable on. -/
theorem outruns_of_written? (hw : x.written? = some id) (hs : x.skipNotice? = none)
    (hv : d.registered? id = some v) (h : Yields x.operate d u d') : d'.Outruns v := by
  cases x with
  | unary node op isBefore operand =>
    cases op with
    | increment | decrement =>
      have hi : operand.isIdentifier = true := by simpa [Expr.skipNotice?] using hs
      exact outruns_of_step hi hw hv h
    | delete => cases hs
    | _ => cases hw
  | assignment node op target value =>
    obtain ⟨m, name, id', isTarget, rfl⟩ := exists_of_yields_assignment h
    obtain rfl : id' = id := Option.some.inj hw
    obtain ⟨⟨err, hty⟩, -⟩ | ⟨-, t, d₁, r, d₂, hval, hr, h⟩ := yields_assignment.1 h
    · simp [Expr.skipNotice?, hty] at hs
    obtain ⟨k, hk⟩ := (continues_valueOf hval).later.version hv
    obtain ⟨⟨new, rfl⟩, hl⟩ := exists_of_yields_assignedValue hk hr
    obtain ⟨n, hn⟩ := hl.version hk
    obtain ⟨hnone, -⟩ | ⟨t, d₃, -, ha, hd⟩ := h
    · cases hnone
    · exact ((outruns_of_assign hn ha).later (later_define hd)).of_later.of_later
  | _ => cases hw

/-! ### Statements -/

/-- What becomes of a write to a variable between two drafts. Only identifiers are assigned to. A
write that is not supported is performed as its warning. Any other one leaves the versions from
before it behind, and no expression that is encoded later states anything about them. -/
structure Settles (x : Expr) (id : Nat) (d d' : Draft) : Prop where
  target : ∀ node op target value, x = .assignment node op target value → target.isIdentifier
  skipped : ∀ notice, x.skipNotice? = some notice → ∃ d₁, Later d d₁ ∧
    Yields x.operate d₁ () (d₁.warned x.location notice) ∧ Later (d₁.warned x.location notice) d'
  advanced : x.skipNotice? = none → ∀ v, d.registered? id = some v → d'.Outruns v
  read : x.skipNotice? = none → ∀ v, d.registered? id = some v → ∀ o o' e, Later d' o →
    Yields (Expr.encode e) o () o' → Leaves v o o'

/-- A write that is visited in an expression is settled wherever the expression is encoded. -/
theorem settles_of_encode {d₀ d₁ : Draft} (hx : e.Visits x) (hw : x.written? = some id)
    (hb : Later d₀ d) (h : Yields e.encode d () d') (ha : Later d' d₁) : Settles x id d₀ d₁ := by
  obtain ⟨c, c', h₁, ho, h₂⟩ := exists_operate hx h
  have hbefore : Later d₀ c := hb.trans h₁.later
  have hafter : Later c' d₁ := h₂.later.trans ha
  have hadvanced : x.skipNotice? = none → ∀ v, d₀.registered? id = some v → d₁.Outruns v := by
    intro hs v hv
    obtain ⟨k, hk⟩ := hbefore.version hv
    exact ((outruns_of_written? hw hs hk ho).later hafter).of_later
  refine ⟨?_, fun notice hs => ?_, hadvanced,
    fun hs v hv o o' e hl hr => e.leaves_encode ((hadvanced hs v hv).later hl) hr⟩
  · rintro node op target value rfl
    obtain ⟨m, name, id', isTarget, rfl⟩ := exists_of_yields_assignment ho
    rfl
  · obtain rfl := eq_warned_of_skipNotice? hs ho
    exact ⟨c, hbefore, ho, hafter⟩

end Draft

namespace Visit

open Draft

variable {contract : Contract} {f : Function} {settings : Settings} {d : Draft}

/-- **Visited writes.** A write that the encoder visits in a statement of a function leaves its
variable at a newer version than before the statement, unless it says in a warning that it is not
supported. Of the writes that are not visited nothing is said. -/
theorem visited_writes_settle (h : (f.analyze settings contract).outcome = .ok d) :
    ∃ o, Yields (do f.warnings; prepare contract f) { settings } () o ∧
      (∀ v, Reaches f.returns ⟨.sequence f.body, o⟩ v →
        (∃ exits c, v.Runs f.returns exits c) ∧
          ∀ role q, (role, q) ∈ v.piece.parts → ∃ c, Part f.returns role v ⟨q, c⟩) ∧
      ∀ s c exits c', Reaches f.returns ⟨.sequence f.body, o⟩ ⟨.statement s, c⟩ →
        Yields (s.encode f.returns) c exits c' →
          ∀ e r, Reaches f.returns ⟨.statement s, c⟩ ⟨.expression e, r⟩ →
            ∀ x id, e.Visits x → x.written? = some id → Settles x id c c' := by
  obtain ⟨d₀, o, exits, d₁, hw, hp, hb, rfl⟩ := outcome_eq_ok.1 h
  have hrun : Visit.Runs f.returns ⟨.sequence f.body, o⟩ exits d₁ := hb
  refine ⟨o, yields_seq.2 ⟨d₀, hw, hp⟩, fun v hv => ?_,
    fun s c exits c' _ hs e r he x id hx hid => ?_⟩
  · obtain ⟨inner, c, hwithin⟩ := hv.runs hrun
    exact ⟨⟨inner, c, hwithin.runs⟩, fun role q hq => exists_part hwithin.runs hq⟩
  · have hstatement : Visit.Runs f.returns ⟨.statement s, c⟩ exits c' := hs
    obtain ⟨-, r', ⟨-, hy⟩, -, -, hafter⟩ := he.runs hstatement
    exact settles_of_encode hx hid he.later hy hafter

/-- The step `x++` on a parameter. -/
def raise : Expr :=
  .unary ⟨3, {}, .integer ⟨8, false⟩⟩ .increment false
    (.identifier ⟨2, {}, .integer ⟨8, false⟩⟩ "x" (some 1) true)

/-- The call `g(x++)`. -/
def passRaised : Expr :=
  .call ⟨5, {}, .bool⟩ (.identifier ⟨4, {}, .function .internal⟩ "g" none false) [raise]

def poll : Stmt := .branch {} passRaised (.block {} []) none

/-- A function with the only statement `if (g(x++)) {}`. -/
def polling : Function :=
  ⟨0, "f", {}, [⟨1, "x", .integer ⟨8, false⟩, {}, none⟩], [], [poll], false, []⟩

theorem registered?_of_yields_prepare {o : Draft} {id : Nat}
    (h : Yields (do f.warnings; prepare contract f) { settings } () o)
    (hr : (role? contract f id).isSome) : ∃ v, o.registered? id = some v := by
  obtain ⟨d₀, hw, hp⟩ := yields_seq.1 h
  obtain ⟨ds, rfl⟩ := yields_warnings hw
  rw [← (Opening.of_yields hp).role? id, Option.isSome_map] at hr
  exact Option.isSome_iff_exists.1 hr

theorem polling_outruns :
    ∃ d o c' v, (polling.analyze {} ⟨0, "C", {}, [], [polling]⟩).outcome = .ok d ∧
      Reaches [] ⟨.sequence polling.body, o⟩ ⟨.statement poll, o⟩ ∧
      (∃ exits, Yields (poll.encode []) o exits c') ∧
      o.registered? 1 = some v ∧ c'.Outruns v := by
  have hok : (polling.analyze {} ⟨0, "C", {}, [], [polling]⟩).outcome.isOk = true := by
    decide +kernel
  cases hd : (polling.analyze {} ⟨0, "C", {}, [], [polling]⟩).outcome with
  | error e =>
    rw [hd] at hok
    cases hok
  | ok d =>
    obtain ⟨o, hprepare, hvisits, hsettles⟩ := visited_writes_settle hd
    have hx : (role? ⟨0, "C", {}, [], [polling]⟩ polling 1).isSome := by decide
    obtain ⟨v, hv⟩ := registered?_of_yields_prepare hprepare hx
    have hpoll : Reaches [] ⟨.sequence polling.body, o⟩ ⟨.statement poll, o⟩ :=
      Part.reaches .first
    obtain ⟨exits, c', hrun⟩ := (hvisits _ hpoll).1
    have htest : Reaches [] ⟨.statement poll, o⟩ ⟨.expression passRaised, o⟩ :=
      Part.reaches .condition
    have hraise : passRaised.Visits raise :=
      .single (by simp [passRaised, Expr.visitedParts, Expr.isAssertion, Expr.ty, Expr.node])
    have hsettled := hsettles poll o exits c' hpoll hrun passRaised o htest raise 1 hraise rfl
    exact ⟨d, o, c', v, rfl, hpoll, ⟨exits, hrun⟩, hv, hsettled.advanced rfl v hv⟩

/-- Writes that no statement of an encoding settles: `delete x`, `(x)++`, `a[x++]`, `(x++)[0]`,
`(x++).length`, `(x++).f()`, `require(true, x++)`, and `x = 1` where `x` has no term. -/
def careless : Function :=
  StateT.run' (m := Id) (do
    let byte : Ty := .integer ⟨8, false⟩
    let x ← Builder.declaration "x" byte
    let step (operand : Expr) : Builder Expr := Builder.unary .increment false operand
    let up : Builder Expr := do step (← Builder.target x)
    let deletion ← Builder.unary .delete true (← Builder.target x)
    let parenthesised ← step (← Builder.tuple [← Builder.target x])
    let a := .identifier (← Builder.node (.array byte)) "a" none false
    let position ← Builder.index a (← up) byte
    let base ← Builder.index (← up) (← Builder.number 0) byte
    let length := .member (← Builder.node byte) (← up) "length"
    let f := .member (← Builder.node (.function .external)) (← up) "f"
    let call := .call (← Builder.node byte) f []
    let require := .identifier (← Builder.node (.function .require)) "require" none false
    let demand := .call (← Builder.node (.tuple [])) require [← Builder.bool true, ← up]
    let text := .identifier (← Builder.node .string) "x" (some x.id) true
    let mistyped := .assignment (← Builder.node byte) .plain text (← Builder.number 1)
    let body ← [deletion, parenthesised, position, base, length, call, demand, mistyped].mapM
      Builder.expression
    Builder.function "f" [x] [] body) Builder.first

theorem careless_loses_writes :
    careless.body.length = 8 ∧ (∀ s ∈ careless.body, ∃ x ∈ s.nodes, x.written? = some 1) ∧
      ∃ d, (careless.analyze {} ⟨0, "C", {}, [], [careless]⟩).outcome = .ok d ∧
        d.version? 1 = some 0 := by
  have hok : (careless.analyze {} ⟨0, "C", {}, [], [careless]⟩).outcome.toOption.bind
      (·.version? 1) = some 0 := by
    decide +kernel
  refine ⟨by decide, by decide, ?_⟩
  cases hd : (careless.analyze {} ⟨0, "C", {}, [], [careless]⟩).outcome with
  | error e =>
    rw [hd] at hok
    cases hok
  | ok d =>
    rw [hd] at hok
    exact ⟨d, rfl, hok⟩

end Visit

end PathFormula
