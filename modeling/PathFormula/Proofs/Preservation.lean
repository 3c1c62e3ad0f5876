import PathFormula.Proofs.Execution

/-!
# What execution preserves

Execution changes a store by writes to the variables that occur in the write set of what is
executed. A property that these writes keep is kept by evaluation (`eval_preserves`) and by
execution (`exec_preserves`), and it holds before the last turn of every loop (`takeTurns_last`).
-/
namespace PathFormula.Source

/-- Every write to a variable of a set keeps a property of stores. -/
def Rules.Preserves (rules : Rules) (W : Nat → Prop) (P : Store → Prop) : Prop :=
  ∀ ⦃σ τ : Store⦄ ⦃id : Nat⦄ ⦃x : Value⦄, W id → P σ → rules.write σ id x = some τ → P τ

variable {rules : Rules} {W : Nat → Prop} {P : Store → Prop}

theorem Rules.Preserves.give (hP : rules.Preserves W P) {σ τ : Store} {id : Nat} {x : Value}
    (hw : W id) (hσ : P σ) (h : rules.give σ id x = some τ) : P τ := by
  unfold Rules.give at h
  split at h
  · exact hP hw hσ h
  · cases h
    exact hσ

theorem Rules.Preserves.step (hP : rules.Preserves W P) {σ : Store} {id : Nat} {change : Int}
    {isBefore : Bool} {x : Value} {τ : Store} (hw : W id) (hσ : P σ)
    (h : rules.step id change isBefore σ = some (x, τ)) : P τ := by
  simp only [Rules.step, Option.bind_eq_bind, Option.bind_eq_some_iff] at h
  obtain ⟨old, -, τ, hτ, hr⟩ := h
  cases hr
  exact hP hw hσ hτ

namespace Expr

/-- Evaluation keeps a property of stores. -/
def Keeps (rules : Rules) (P : Store → Prop) (e : Expr) : Prop :=
  ∀ ⦃σ τ : Store⦄ ⦃x : Value⦄, P σ → e.eval rules σ = some (x, τ) → P τ

theorem keeps_binary {node : Node} {op : BinaryOp} {left right : Expr} {common : Ty}
    (hl : left.Keeps rules P) (hr : right.Keeps rules P) :
    (binary node op left right common).Keeps rules P := by
  intro σ τ x hσ h
  cases op with
  | arithmetic op =>
    simp only [eval, Option.bind_eq_bind, Option.bind_eq_some_iff] at h
    obtain ⟨_, -, ⟨x, σ₁⟩, hx, ⟨y, σ₂⟩, hy, _, -, h⟩ := h
    cases h
    exact hr (hl hσ hx) hy
  | comparison op =>
    simp only [eval, Option.bind_eq_bind, Option.bind_eq_some_iff] at h
    obtain ⟨⟨x, σ₁⟩, hx, ⟨y, σ₂⟩, hy, h⟩ := h
    cases h
    exact hr (hl hσ hx) hy
  | connective op =>
    cases op with
    | and =>
      simp only [eval, Option.bind_eq_bind, Option.bind_eq_some_iff] at h
      obtain ⟨⟨x, σ₁⟩, hx, h⟩ := h
      split at h
      · exact hr (hl hσ hx) h
      · cases h
        exact hl hσ hx
    | or =>
      simp only [eval, Option.bind_eq_bind, Option.bind_eq_some_iff] at h
      obtain ⟨⟨x, σ₁⟩, hx, h⟩ := h
      split at h
      · cases h
        exact hl hσ hx
      · exact hr (hl hσ hx) h
  | mod | exp | bitwise => cases h

/-- An expression writes no other variables than those in its write set. -/
theorem eval_preserves (hP : rules.Preserves W P) :
    ∀ e : Expr, (∀ id ∈ e.writes, W id) → e.Keeps rules P
  | .literal _ (.bool _), _ => fun σ τ x hσ h => by
    cases h
    exact hσ
  | .literal _ (.number _), _ => fun σ τ x hσ h => by
    rw [eval] at h
    split at h <;> cases h
    exact hσ
  | .literal _ (.string _), _ => fun σ τ x hσ h => by cases h
  | .identifier _ _ (some id) _, _ => fun σ τ x hσ h => by
    obtain ⟨x, -, h⟩ := Option.map_eq_some_iff.1 h
    cases h
    exact hσ
  | .identifier _ _ none _, _ => fun σ τ x hσ h => by cases h
  | .unary _ op _ operand, hw => fun σ τ x hσ h => by
    simp only [writes, List.mem_append, or_imp, forall_and] at hw
    have ih := eval_preserves hP operand hw.2
    cases op with
    | not | minus =>
      obtain ⟨⟨x, σ₁⟩, hx, h⟩ := Option.map_eq_some_iff.1 h
      cases h
      exact ih hσ hx
    | plus => exact ih hσ h
    | increment | decrement =>
      obtain ⟨id, hr, h⟩ := Option.bind_eq_some_iff.1 h
      exact hP.step (hw.1 id (by simp [hr])) hσ h
    | bitNot | delete => cases h
  | .binary _ op left right _, hw => by
    simp only [writes, List.mem_append, or_imp, forall_and] at hw
    exact keeps_binary (eval_preserves hP left hw.1) (eval_preserves hP right hw.2)
  | .assignment _ op target value, hw => fun σ τ x hσ h => by
    simp only [writes, List.mem_append, or_imp, forall_and] at hw
    have ih := eval_preserves hP value hw.1.2
    rw [eval, Option.bind_eq_bind, Option.bind_eq_some_iff] at h
    obtain ⟨id, hid, h⟩ := h
    rw [Option.bind_eq_bind, Option.bind_eq_some_iff] at h
    obtain ⟨⟨y, σ₁⟩, hy, h⟩ := h
    have hwrite : ∀ {z : Value} {τ : Store}, rules.write σ₁ id z = some τ → P τ :=
      fun h => hP (hw.1.1 id (by simp [hid])) (ih hσ hy) h
    cases op with
    | plain =>
      simp only [Option.bind_eq_bind, Option.bind_eq_some_iff] at h
      obtain ⟨z, -, τ, hτ, h⟩ := h
      cases h
      exact hwrite hτ
    | arithmetic op =>
      simp only [Option.bind_eq_bind, Option.bind_eq_some_iff] at h
      obtain ⟨_, -, _, -, z, -, τ, hτ, h⟩ := h
      cases h
      exact hwrite hτ
    | mod | bitwise => cases h
  | .tuple _ [single] false, hw => by
    simp only [writes, writesOfAll, List.append_nil] at hw
    exact eval_preserves hP single hw
  | .tuple _ [_] true, _ | .tuple _ [] _, _ | .tuple _ (_ :: _ :: _) _, _ | .call .., _
  | .index .., _ | .member .., _ => fun σ τ x hσ h => by cases h

theorem writes_asserted {e condition : Expr} (h : e.asserted? = some condition) :
    condition.writes ⊆ e.writes := by
  unfold asserted? at h
  split at h
  · split at h <;> cases h <;> simp [writes, writesOfAll]
  · cases h

end Expr

/-! ### Loops -/

/-- A loop that ends takes a last turn, and what turns keep holds before it. -/
theorem takeTurns_last {turn : Store → Option (Turn × Store)}
    (ht : ∀ σ τ, P σ → turn σ = some (.again, τ) → P τ) {n : Nat} {σ τ : Store} {flow : Flow}
    (hσ : P σ) (h : takeTurns turn n σ = some (flow, τ)) :
    ∃ ρ, P ρ ∧ turn ρ = some (.leave flow, τ) := by
  induction n generalizing σ with
  | zero => cases h
  | succ n ih =>
    simp only [takeTurns, Option.bind_eq_bind, Option.bind_eq_some_iff] at h
    obtain ⟨⟨turn', ρ⟩, hr, h⟩ := h
    cases turn' with
    | again => exact ih (ht σ ρ hσ hr) h
    | leave flow' =>
      cases h
      exact ⟨σ, hσ, hr⟩

section Turns

variable {test : Store → Option (Bool × Store)} {body : Store → Option (Flow × Store)}
  {step : Store → Option Store} {σ τ : Store} {flow : Flow}

theorem turnTestFirst_again :
    turnTestFirst test body step σ = some (.again, τ) ↔
      ∃ σ₁ σ₂, test σ = some (true, σ₁) ∧ body σ₁ = some (.next, σ₂) ∧ step σ₂ = some τ := by
  simp only [turnTestFirst, Option.bind_eq_bind, Option.bind_eq_some_iff, Prod.exists]
  constructor
  · rintro ⟨b, σ₁, ht, h⟩
    cases b with
    | false => cases h
    | true =>
      obtain ⟨f, σ₂, hb, h⟩ := by simpa [Option.bind_eq_some_iff] using h
      cases f with
      | next =>
        obtain ⟨σ₃, hs, h⟩ := Option.bind_eq_some_iff.1 h
        cases h
        exact ⟨σ₁, σ₂, ht, hb, hs⟩
      | returned => cases h
  · rintro ⟨σ₁, σ₂, ht, hb, hs⟩
    exact ⟨true, σ₁, ht, by simp [hb, hs]⟩

theorem turnTestFirst_leave :
    turnTestFirst test body step σ = some (.leave flow, τ) ↔
      (flow = .next ∧ test σ = some (false, τ)) ∨
        flow = .returned ∧ ∃ σ₁, test σ = some (true, σ₁) ∧ body σ₁ = some (.returned, τ) := by
  simp only [turnTestFirst, Option.bind_eq_bind, Option.bind_eq_some_iff, Prod.exists]
  constructor
  · rintro ⟨b, σ₁, ht, h⟩
    cases b with
    | false =>
      cases h
      exact .inl ⟨rfl, ht⟩
    | true =>
      obtain ⟨f, σ₂, hb, h⟩ := by simpa [Option.bind_eq_some_iff] using h
      cases f with
      | next =>
        obtain ⟨σ₃, hs, h⟩ := Option.bind_eq_some_iff.1 h
        cases h
      | returned =>
        cases h
        exact .inr ⟨rfl, σ₁, ht, hb⟩
  · rintro (⟨rfl, ht⟩ | ⟨rfl, σ₁, ht, hb⟩)
    · exact ⟨false, τ, ht, rfl⟩
    · exact ⟨true, σ₁, ht, by simp [hb]⟩

theorem turnBodyFirst_again :
    turnBodyFirst test body σ = some (.again, τ) ↔
      ∃ σ₁, body σ = some (.next, σ₁) ∧ test σ₁ = some (true, τ) := by
  simp only [turnBodyFirst, Option.bind_eq_bind, Option.bind_eq_some_iff, Prod.exists]
  constructor
  · rintro ⟨f, σ₁, hb, h⟩
    cases f with
    | next =>
      obtain ⟨⟨b, σ₂⟩, ht, h⟩ := Option.bind_eq_some_iff.1 h
      cases b <;> cases h
      exact ⟨σ₁, hb, ht⟩
    | returned => cases h
  · rintro ⟨σ₁, hb, ht⟩
    exact ⟨.next, σ₁, hb, by simp [ht]⟩

theorem turnBodyFirst_leave :
    turnBodyFirst test body σ = some (.leave flow, τ) ↔
      (flow = .next ∧ ∃ σ₁, body σ = some (.next, σ₁) ∧ test σ₁ = some (false, τ)) ∨
        flow = .returned ∧ body σ = some (.returned, τ) := by
  simp only [turnBodyFirst, Option.bind_eq_bind, Option.bind_eq_some_iff, Prod.exists]
  constructor
  · rintro ⟨f, σ₁, hb, h⟩
    cases f with
    | next =>
      obtain ⟨⟨b, σ₂⟩, ht, h⟩ := Option.bind_eq_some_iff.1 h
      cases b <;> cases h
      exact .inl ⟨rfl, σ₁, hb, ht⟩
    | returned =>
      cases h
      exact .inr ⟨rfl, hb⟩
  · rintro (⟨rfl, σ₁, hb, ht⟩ | ⟨rfl, hb⟩)
    · exact ⟨.next, σ₁, hb, by simp [ht]⟩
    · exact ⟨.returned, τ, hb, by simp⟩

end Turns

/-! ### Statements -/

namespace Stmt

variable {returns : List Declaration} {fuel : Nat} {location : Location} {σ τ : Store} {flow : Flow}

/-- A statement that may be missing. -/
def execOption (rules : Rules) (returns : List Declaration) (fuel : Nat) :
    Option Stmt → Store → Option (Flow × Store)
  | none => fun σ => some (.next, σ)
  | some s => s.exec rules returns fuel

theorem exec_declare {declaration : Declaration} {initial : Option Expr} :
    (declare location [declaration] initial).exec rules returns fuel σ = some (flow, τ) ↔
      flow = .next ∧ ∃ x σ₁,
        (match initial with
          | none => some (declaration.zero, σ)
          | some e => e.eval rules σ) = some (x, σ₁) ∧ rules.give σ₁ declaration.id x = some τ := by
  cases initial <;>
  · simp only [exec, Option.bind_eq_bind, Option.bind_eq_some_iff, Prod.exists]
    constructor
    · rintro ⟨x, σ₁, hx, τ, hτ, h⟩
      cases h
      exact ⟨rfl, x, σ₁, hx, hτ⟩
    · rintro ⟨rfl, x, σ₁, hx, hτ⟩
      exact ⟨x, σ₁, hx, τ, hτ, rfl⟩

theorem exec_expression {e : Expr} (h : e.asserted? = none) :
    (expression location e).exec rules returns fuel σ = some (flow, τ) ↔
      flow = .next ∧ ∃ x, e.eval rules σ = some (x, τ) := by
  simp only [exec, h, Option.map_eq_some_iff, Prod.exists]
  constructor
  · rintro ⟨x, σ₁, hx, h⟩
    cases h
    exact ⟨rfl, x, hx⟩
  · rintro ⟨rfl, x, hx⟩
    exact ⟨x, τ, hx, rfl⟩

theorem exec_assertion {e condition : Expr} (h : e.asserted? = some condition) :
    (expression location e).exec rules returns fuel σ = some (flow, τ) ↔
      flow = .next ∧ condition.test rules σ = some (true, τ) := by
  simp only [exec, h, Option.bind_eq_bind, Option.bind_eq_some_iff, Prod.exists]
  constructor
  · rintro ⟨b, σ₁, hb, h⟩
    cases b <;> cases h
    exact ⟨rfl, hb⟩
  · rintro ⟨rfl, hb⟩
    exact ⟨true, τ, hb, rfl⟩

theorem exec_branch {condition : Expr} {yes : Stmt} {no : Option Stmt} :
    (branch location condition yes no).exec rules returns fuel σ = some (flow, τ) ↔
      (∃ σ₁, condition.test rules σ = some (true, σ₁) ∧
          yes.exec rules returns fuel σ₁ = some (flow, τ)) ∨
        ∃ σ₁, condition.test rules σ = some (false, σ₁) ∧
          execOption rules returns fuel no σ₁ = some (flow, τ) := by
  cases no <;>
  · simp only [exec, Option.bind_eq_bind, Option.bind_eq_some_iff, Prod.exists]
    constructor
    · rintro ⟨b, σ₁, hb, h⟩
      cases b with
      | true => exact .inl ⟨σ₁, hb, h⟩
      | false => exact .inr ⟨σ₁, hb, h⟩
    · rintro (⟨σ₁, hb, h⟩ | ⟨σ₁, hb, h⟩)
      · exact ⟨true, σ₁, hb, h⟩
      · exact ⟨false, σ₁, hb, h⟩

theorem exec_ret_some {e : Expr} :
    (ret location (some e)).exec rules returns fuel σ = some (flow, τ) ↔
      flow = .returned ∧ ∃ x σ₁, e.eval rules σ = some (x, σ₁) ∧
        ((∃ slot, returns = [slot] ∧ rules.give σ₁ slot.id x = some τ) ∨
          (∀ slot, returns ≠ [slot]) ∧ τ = σ₁) := by
  simp only [exec, Option.bind_eq_bind, Option.bind_eq_some_iff, Prod.exists]
  constructor
  · rintro ⟨x, σ₁, hx, h⟩
    split at h
    · obtain ⟨τ, hτ, h⟩ := Option.bind_eq_some_iff.1 h
      cases h
      exact ⟨rfl, x, σ₁, hx, .inl ⟨_, rfl, hτ⟩⟩
    · rename_i hm
      cases h
      exact ⟨rfl, x, _, hx, .inr ⟨hm, rfl⟩⟩
  · rintro ⟨rfl, x, σ₁, hx, ⟨slot, rfl, hτ⟩ | ⟨hm, hτ⟩⟩
    · exact ⟨x, σ₁, hx, by simp [hτ]⟩
    · subst hτ
      refine ⟨x, _, hx, ?_⟩
      split
      · exact absurd rfl (hm _)
      · rfl

theorem execAll_cons {s : Stmt} {rest : List Stmt} :
    execAll rules returns fuel (s :: rest) σ = some (flow, τ) ↔
      (∃ σ₁, s.exec rules returns fuel σ = some (.next, σ₁) ∧
          execAll rules returns fuel rest σ₁ = some (flow, τ)) ∨
        flow = .returned ∧ s.exec rules returns fuel σ = some (.returned, τ) := by
  simp only [execAll, Option.bind_eq_bind, Option.bind_eq_some_iff, Prod.exists]
  constructor
  · rintro ⟨f, σ₁, hs, h⟩
    cases f with
    | next => exact .inl ⟨σ₁, hs, h⟩
    | returned =>
      cases h
      exact .inr ⟨rfl, hs⟩
  · rintro (⟨σ₁, hs, h⟩ | ⟨rfl, hs⟩)
    · exact ⟨.next, σ₁, hs, h⟩
    · exact ⟨.returned, τ, hs, rfl⟩

/-- The test of a loop. A missing one always holds. -/
def testOf (rules : Rules) : Option Expr → Store → Option (Bool × Store)
  | none => fun σ => some (true, σ)
  | some condition => condition.test rules

def stepOf (rules : Rules) : Option Expr → Store → Option Store
  | none => some
  | some step => fun σ => (step.eval rules σ).map Prod.snd

/-- The turns of a loop, unless its start left the function. -/
def afterStart (turns : Store → Option (Flow × Store)) (start : Flow × Store) :
    Option (Flow × Store) :=
  match start.1 with
  | .next => turns start.2
  | .returned => some (.returned, start.2)

theorem exec_forLoop {start : Option Stmt} {condition step : Option Expr} {body : Stmt} :
    (forLoop location start condition step body).exec rules returns fuel σ = some (flow, τ) ↔
      (∃ σ₁, execOption rules returns fuel start σ = some (.next, σ₁) ∧
          takeTurns (turnTestFirst (testOf rules condition) (body.exec rules returns fuel)
            (stepOf rules step)) fuel σ₁ = some (flow, τ)) ∨
        flow = .returned ∧ execOption rules returns fuel start σ = some (.returned, τ) := by
  have hform : (forLoop location start condition step body).exec rules returns fuel σ =
      (execOption rules returns fuel start σ).bind (afterStart (takeTurns (turnTestFirst
        (testOf rules condition) (body.exec rules returns fuel) (stepOf rules step)) fuel)) := by
    cases start <;> cases condition <;> cases step <;> rfl
  rw [hform, Option.bind_eq_some_iff, Prod.exists]
  constructor
  · rintro ⟨f, σ₁, hf, h⟩
    cases f with
    | next => exact .inl ⟨σ₁, hf, h⟩
    | returned =>
      cases h
      exact .inr ⟨rfl, hf⟩
  · rintro (⟨σ₁, hf, h⟩ | ⟨rfl, hf⟩)
    · exact ⟨.next, σ₁, hf, h⟩
    · exact ⟨.returned, τ, hf, rfl⟩

/-- Execution keeps a property of stores, also where it returns and writes a slot. -/
def Keeps (rules : Rules) (returns : List Declaration) (fuel : Nat) (W : Nat → Prop)
    (P : Store → Prop) (s : Stmt) : Prop :=
  ∀ ⦃σ τ : Store⦄ ⦃flow : Flow⦄, (flow = .returned → ∀ slot ∈ returns, W slot.id) → P σ →
    s.exec rules returns fuel σ = some (flow, τ) → P τ

theorem keeps_test {condition : Expr} {b : Bool} (hc : condition.Keeps rules P) (hσ : P σ)
    (h : condition.test rules σ = some (b, τ)) : P τ := by
  obtain ⟨⟨x, σ₁⟩, hx, h⟩ := Option.map_eq_some_iff.1 h
  cases h
  exact hc hσ hx

theorem keeps_testOf {condition : Option Expr} {b : Bool}
    (hc : ∀ e ∈ condition, e.Keeps rules P) (hσ : P σ)
    (h : testOf rules condition σ = some (b, τ)) : P τ := by
  cases condition with
  | none =>
    cases h
    exact hσ
  | some e => exact keeps_test (hc e rfl) hσ h

theorem keeps_stepOf {step : Option Expr} (hs : ∀ e ∈ step, e.Keeps rules P) (hσ : P σ)
    (h : stepOf rules step σ = some τ) : P τ := by
  cases step with
  | none =>
    cases h
    exact hσ
  | some e =>
    obtain ⟨⟨x, σ₁⟩, hx, h⟩ := Option.map_eq_some_iff.1 h
    cases h
    exact hs e rfl hσ hx

theorem keeps_none : ∀ e ∈ (none : Option Expr), e.Keeps rules P := by simp

theorem keeps_some {x : Expr} (h : x.Keeps rules P) : ∀ e ∈ some x, e.Keeps rules P :=
  fun _ he => Option.some.inj he ▸ h

/-- The last turn of a loop starts where all turns before it led, and they kept the property. -/
theorem turns_last {condition step : Option Expr} {body : Stmt}
    (hc : ∀ e ∈ condition, e.Keeps rules P) (hs : ∀ e ∈ step, e.Keeps rules P)
    (hb : body.Keeps rules returns fuel W P) {n : Nat} (hσ : P σ)
    (h : takeTurns (turnTestFirst (testOf rules condition) (body.exec rules returns fuel)
      (stepOf rules step)) n σ = some (flow, τ)) :
    ∃ ρ, P ρ ∧ ((flow = .next ∧ testOf rules condition ρ = some (false, τ)) ∨
      flow = .returned ∧ ∃ σ₁, testOf rules condition ρ = some (true, σ₁) ∧
        body.exec rules returns fuel σ₁ = some (.returned, τ)) := by
  obtain ⟨ρ, hρ, hl⟩ := takeTurns_last (fun σ τ hσ ht => by
    obtain ⟨σ₁, σ₂, h₁, h₂, h₃⟩ := turnTestFirst_again.1 ht
    exact keeps_stepOf hs (hb (by simp) (keeps_testOf hc hσ h₁) h₂) h₃) hσ h
  exact ⟨ρ, hρ, turnTestFirst_leave.1 hl⟩

theorem keeps_turns {condition step : Option Expr} {body : Stmt}
    (hc : ∀ e ∈ condition, e.Keeps rules P) (hs : ∀ e ∈ step, e.Keeps rules P)
    (hb : body.Keeps rules returns fuel W P) {n : Nat}
    (hw : flow = .returned → ∀ slot ∈ returns, W slot.id) (hσ : P σ)
    (h : takeTurns (turnTestFirst (testOf rules condition) (body.exec rules returns fuel)
      (stepOf rules step)) n σ = some (flow, τ)) : P τ := by
  obtain ⟨ρ, hρ, ⟨rfl, h₁⟩ | ⟨rfl, σ₁, h₁, h₂⟩⟩ := turns_last hc hs hb hσ h
  · exact keeps_testOf hc hρ h₁
  · exact hb hw (keeps_testOf hc hρ h₁) h₂

theorem turnsBodyFirst_last {condition : Expr} {body : Stmt} (hc : condition.Keeps rules P)
    (hb : body.Keeps rules returns fuel W P) {n : Nat} (hσ : P σ)
    (h : takeTurns (turnBodyFirst (condition.test rules) (body.exec rules returns fuel)) n σ =
      some (flow, τ)) :
    ∃ ρ, P ρ ∧ ((flow = .next ∧ ∃ σ₁, body.exec rules returns fuel ρ = some (.next, σ₁) ∧
        condition.test rules σ₁ = some (false, τ)) ∨
      flow = .returned ∧ body.exec rules returns fuel ρ = some (.returned, τ)) := by
  obtain ⟨ρ, hρ, hl⟩ := takeTurns_last (fun σ τ hσ ht => by
    obtain ⟨σ₁, h₁, h₂⟩ := turnBodyFirst_again.1 ht
    exact keeps_test hc (hb (by simp) hσ h₁) h₂) hσ h
  exact ⟨ρ, hρ, turnBodyFirst_leave.1 hl⟩

theorem keeps_turnsBodyFirst {condition : Expr} {body : Stmt} (hc : condition.Keeps rules P)
    (hb : body.Keeps rules returns fuel W P) {n : Nat}
    (hw : flow = .returned → ∀ slot ∈ returns, W slot.id) (hσ : P σ)
    (h : takeTurns (turnBodyFirst (condition.test rules) (body.exec rules returns fuel)) n σ =
      some (flow, τ)) : P τ := by
  obtain ⟨ρ, hρ, ⟨rfl, σ₁, h₁, h₂⟩ | ⟨rfl, h₁⟩⟩ := turnsBodyFirst_last hc hb hσ h
  · exact keeps_test hc (hb (by simp) hρ h₁) h₂
  · exact hb hw hρ h₁

mutual

/-- A statement writes the variables of its write set, and the return slots if it returns. -/
theorem exec_preserves (hP : rules.Preserves W P) :
    ∀ s : Stmt, (∀ id ∈ s.writes, W id) → s.Keeps rules returns fuel W P
  | .block _ body, hw => fun σ τ flow hr hσ h => execAll_preserves hP body hw hr hσ h
  | .declare _ [declaration] initial, hw => fun σ τ flow hr hσ h => by
    simp only [writes, List.map_cons, List.map_nil, List.cons_append, List.nil_append,
      List.mem_cons, forall_eq_or_imp] at hw
    obtain ⟨rfl, x, σ₁, hx, hτ⟩ := exec_declare.1 h
    refine hP.give hw.1 ?_ hτ
    cases initial with
    | none =>
      cases hx
      exact hσ
    | some e => exact Expr.eval_preserves hP e hw.2 hσ hx
  | .declare _ [] _, _ | .declare _ (_ :: _ :: _) _, _ => fun σ τ flow hr hσ h => by cases h
  | .expression _ e, hw => fun σ τ flow hr hσ h => by
    cases ha : e.asserted? with
    | none =>
      obtain ⟨rfl, x, hx⟩ := (exec_expression ha).1 h
      exact Expr.eval_preserves hP e hw hσ hx
    | some condition =>
      obtain ⟨rfl, hx⟩ := (exec_assertion ha).1 h
      refine keeps_test (Expr.eval_preserves hP condition fun id hid => hw id ?_) hσ hx
      exact Expr.writes_asserted ha hid
  | .branch _ condition yes no, hw => fun σ τ flow hr hσ h => by
    simp only [writes, List.mem_append, or_imp, forall_and] at hw
    have hc := Expr.eval_preserves hP condition hw.1.1
    obtain ⟨σ₁, h₁, h₂⟩ | ⟨σ₁, h₁, h₂⟩ := exec_branch.1 h
    · exact exec_preserves hP yes hw.1.2 hr (keeps_test hc hσ h₁) h₂
    · cases no with
      | none =>
        cases h₂
        exact keeps_test hc hσ h₁
      | some no => exact exec_preserves hP no hw.2 hr (keeps_test hc hσ h₁) h₂
  | .whileLoop _ condition body isBodyFirst, hw => fun σ τ flow hr hσ h => by
    simp only [writes, List.mem_append, or_imp, forall_and] at hw
    have hc := Expr.eval_preserves hP condition hw.1
    have hb : body.Keeps rules returns fuel W P := exec_preserves hP body hw.2
    cases isBodyFirst with
    | true => exact keeps_turnsBodyFirst hc hb hr hσ h
    | false => exact keeps_turns (keeps_some hc) keeps_none hb hr hσ h
  | .forLoop _ start condition step body, hw => fun σ τ flow hr hσ h => by
    simp only [writes, List.mem_append, or_imp, forall_and] at hw
    obtain ⟨⟨⟨hwf, hwc⟩, hws⟩, hwb⟩ := hw
    have hstart : ∀ {τ : Store} {flow : Flow}, (flow = .returned → ∀ slot ∈ returns, W slot.id) →
        execOption rules returns fuel start σ = some (flow, τ) → P τ := by
      intro τ flow hr h
      cases start with
      | none =>
        cases h
        exact hσ
      | some start => exact exec_preserves hP start hwf hr hσ h
    obtain ⟨σ₁, h₁, h₂⟩ | ⟨rfl, h₁⟩ := exec_forLoop.1 h
    · refine keeps_turns (fun e he => ?_) (fun e he => ?_) (exec_preserves hP body hwb) hr
        (hstart (by simp) h₁) h₂
      · cases he
        exact Expr.eval_preserves hP e hwc
      · cases he
        exact Expr.eval_preserves hP e hws
    · exact hstart hr h₁
  | .ret _ none, _ => fun σ τ flow hr hσ h => by
    cases h
    exact hσ
  | .ret _ (some e), hw => fun σ τ flow hr hσ h => by
    obtain ⟨rfl, x, σ₁, hx, hτ⟩ := exec_ret_some.1 h
    have hσ₁ := Expr.eval_preserves hP e hw hσ hx
    obtain ⟨slot, rfl, hτ⟩ | ⟨-, rfl⟩ := hτ
    · exact hP.give (hr rfl slot (by simp)) hσ₁ hτ
    · exact hσ₁

theorem execAll_preserves (hP : rules.Preserves W P) :
    ∀ body : List Stmt, (∀ id ∈ writesOfAll body, W id) → ∀ ⦃σ τ : Store⦄ ⦃flow : Flow⦄,
      (flow = .returned → ∀ slot ∈ returns, W slot.id) → P σ →
        execAll rules returns fuel body σ = some (flow, τ) → P τ
  | [], _, σ, τ, flow, _, hσ, h => by
    cases h
    exact hσ
  | s :: rest, hw, σ, τ, flow, hr, hσ, h => by
    simp only [writesOfAll, List.mem_append, or_imp, forall_and] at hw
    obtain ⟨σ₁, h₁, h₂⟩ | ⟨rfl, h₁⟩ := execAll_cons.1 h
    · exact execAll_preserves hP rest hw.2 hr (exec_preserves hP s hw.1 (by simp) hσ h₁) h₂
    · exact exec_preserves hP s hw.1 hr hσ h₁

end

end Stmt

/-! ### Ranges and frames -/

/-- Every variable has a value of its type, and there are no others. -/
def Ranged (Γ : Nat → Option Domain) (σ : Store) : Prop :=
  ∀ id, match Γ id with
    | some domain => ∃ x, σ id = some x ∧ domain.admits x
    | none => σ id = none

/-- Only values of its type are stored in a variable. -/
def Rules.Bounds (rules : Rules) (Γ : Nat → Option Domain) : Prop :=
  ∀ id x, rules.admits id x → ∀ domain ∈ Γ id, domain.admits x

variable {Γ : Nat → Option Domain}

theorem Rules.Bounds.preserves (h : rules.Bounds Γ) : rules.Preserves W (Ranged Γ) := by
  intro σ τ id x _ hσ hx other
  have ho := hσ other
  unfold Rules.write at hx
  split at hx
  · rename_i hc
    cases hx
    simp only [Bool.and_eq_true] at hc
    by_cases he : other = id
    · subst he
      cases hd : Γ other with
      | none =>
        rw [hd] at ho
        rw [ho] at hc
        cases hc.1
      | some domain => exact ⟨x, Function.update_self .., h other x hc.2 domain hd⟩
    · rwa [Function.update_of_ne he]
  · cases hx

/-- Variables that are not written keep their values. -/
theorem preserves_frame (rules : Rules) (W : Nat → Prop) (σ₀ : Store) :
    rules.Preserves W fun σ => ∀ id, ¬ W id → σ id = σ₀ id := by
  intro σ τ id x hid hσ hx other ho
  unfold Rules.write at hx
  split at hx
  · cases hx
    have hne : other ≠ id := by
      rintro rfl
      exact ho hid
    rw [Function.update_of_ne hne]
    exact hσ other ho
  · cases hx

theorem Rules.Preserves.and {Q : Store → Prop} (hP : rules.Preserves W P)
    (hQ : rules.Preserves W Q) : rules.Preserves W fun σ => P σ ∧ Q σ :=
  fun _ _ _ _ hw hσ hx => ⟨hP hw hσ.1 hx, hQ hw hσ.2 hx⟩

end PathFormula.Source
