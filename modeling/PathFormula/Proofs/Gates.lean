import Mathlib.Data.List.Forall2
import PathFormula.Proofs.History

/-!
# Gates

Pushing a path condition opens a gate, and popping one closes the innermost. A draft does not keep
its gates but the conjunctions of those that are open, without the constant `true`. A log keeps the
gates themselves, beside any operations (`Log.recordAll`). It describes the draft after each of them
(`Log.Describes.run`), so that every constraint stands under exactly the gates that were open when
it was emitted (`gates_guard`).
-/
namespace PathFormula.Draft

open Source

/-- A condition, and the truth value that it has where the gate is open. -/
structure Gate where
  condition : Term
  sign : Bool
  deriving DecidableEq, Repr

namespace Gate

variable {g : Gate} {m : Model}

def IsOpen (g : Gate) (m : Model) : Prop := g.condition.Holds m ↔ g.sign = true

/-- What is pushed for the gate. -/
def term (g : Gate) : Term := if g.sign then g.condition else .not g.condition

theorem holds_term : g.term.Holds m ↔ g.IsOpen m := by
  unfold term IsOpen
  cases g.sign with
  | true => simp
  | false => simp [Term.holds_not]

theorem hasSort_term (h : g.condition.HasSort .bool) : g.term.HasSort .bool := by
  unfold term
  split
  · exact h
  · exact .not h

end Gate

/-- The term is true where all gates are open, and it is boolean if their conditions are. -/
structure Conjoins (gates : List Gate) (t : Term) : Prop where
  holds : ∀ m, t.Holds m ↔ ∀ g ∈ gates, g.IsOpen m
  hasSort : (∀ g ∈ gates, g.condition.HasSort .bool) → t.HasSort .bool

/-- Every condition of a path conjoins its own gate and those further out. -/
inductive Stacked : List Gate → List Term → Prop
  | nil : Stacked [] []
  | cons {g : Gate} {gates : List Gate} {t : Term} {path : List Term} (h : Conjoins (g :: gates) t)
      (rest : Stacked gates path) : Stacked (g :: gates) (t :: path)

section Stacked

variable {d : Draft} {gates : List Gate} {path : List Term}

theorem conjoins_nil : Conjoins [] (.ofBool true) where
  holds m := by simp [Term.Holds, Value.truth]
  hasSort _ := Term.hasSort_ofBool true

/-- A condition that is not joined to the constant `true` still conjoins all gates. -/
theorem Conjoins.pushed (h : Conjoins gates d.pathCondition) (g : Gate) :
    Conjoins (g :: gates) (d.pushed g.term).pathCondition where
  holds m := by
    have hpushed : (d.pushed g.term).pathCondition.Holds m ↔
        d.pathCondition.Holds m ∧ g.term.Holds m := open_pushed
    rw [hpushed, h.holds, Gate.holds_term, List.forall_mem_cons, and_comm]
  hasSort hs := by
    rw [List.forall_mem_cons] at hs
    change Term.HasSort (if _ then _ else _) _
    -- alone where the condition so far is the constant `true`, else joined to it
    split
    · exact Gate.hasSort_term hs.1
    · exact .dyadic rfl (h.hasSort hs.2) (Gate.hasSort_term hs.1)

namespace Stacked

theorem conjoins (h : Stacked gates d.path) : Conjoins gates d.pathCondition := by
  unfold pathCondition
  generalize d.path = path at h
  cases h with
  | nil => exact conjoins_nil
  | cons h _ => exact h

theorem pushed (h : Stacked gates d.path) (g : Gate) :
    Stacked (g :: gates) (d.pushed g.term).path :=
  .cons (h.conjoins.pushed g) h

theorem tail (h : Stacked gates path) : Stacked gates.tail path.tail := by
  cases h with
  | nil => exact .nil
  | cons _ rest => exact rest

theorem length_eq (h : Stacked gates path) : path.length = gates.length := by
  induction h with
  | nil => rfl
  | cons _ _ ih => simp [ih]

end Stacked

end Stacked

/-! ### What keeps to the path -/

/-- The path is as before, and what was emitted since stands under its condition. -/
structure Level (d d' : Draft) : Prop where
  path : d'.path = d.path
  constraints : ∃ new, d'.constraints = d.constraints ++ new ∧
    ∀ c ∈ new, c.guard = d.pathCondition

namespace Level

variable {d d₁ d' : Draft}

theorem of_eq (hp : d'.path = d.path) (hc : d'.constraints = d.constraints) : Level d d' :=
  ⟨hp, [], by simp [hc]⟩

theorem refl (d : Draft) : Level d d := .of_eq rfl rfl

theorem trans (h : Level d d₁) (h' : Level d₁ d') : Level d d' := by
  obtain ⟨hp, new, hc, hg⟩ := h
  obtain ⟨hp', new', hc', hg'⟩ := h'
  have hpath : d₁.pathCondition = d.pathCondition := by rw [pathCondition, hp, pathCondition]
  refine ⟨hp'.trans hp, new ++ new', by rw [hc', hc, List.append_assoc], ?_⟩
  intro c hmem
  rcases List.mem_append.1 hmem with hmem | hmem
  · exact hg c hmem
  · exact (hg' c hmem).trans hpath

theorem emitted (d : Draft) (fact : Term) (location : Location) :
    Level d (d.emitted fact location) :=
  ⟨rfl, [⟨d.pathCondition, fact, location⟩], rfl, by simp⟩

theorem entered (d : Draft) (v : Registered) (location : Location) :
    Level d (d.entered v location) :=
  ⟨rfl, [⟨d.pathCondition, v.partition.startFact v.toVariable, location⟩], rfl, by simp⟩

end Level

variable {d : Draft}

theorem allows_level {target : Option Nat} {registered : Nat → Bool} :
    (callMandate target registered).Allows fun d d' => Later d d' ∧ Level d d' where
  later h := h.1
  refl d := ⟨.refl d, .refl d⟩
  trans h h' := ⟨h.1.trans h'.1, h.2.trans h'.2⟩
  warned _ _ _ := ⟨.warned, .of_eq rfl rfl⟩
  emitted d fact location := ⟨.emitted, .emitted d fact location⟩
  named _ hk := ⟨.named hk, .of_eq rfl rfl⟩
  advanced _ _ _ := ⟨.advanced, .of_eq rfl rfl⟩
  withPath _ _ hb := hb.elim

theorem Call.level_run (call : Call) (d : Draft) : Level d (after call.run d) := by
  obtain ⟨xs, h⟩ := call.composed_run d.isRegistered
  exact ((h.changes allows_level rfl).mono (fun _ _ _ h => h.1.2) fun _ _ h => h.2).after

theorem level_register {partition : Partition} {declaration : Declaration} :
    Level d (after (register partition declaration) d) :=
  after_register .refl (fun _ _ => .of_eq rfl rfl) fun _ _ _ => .entered d _ _

theorem level_startRegistration {contract function : String} :
    Level d (after (startRegistration contract function) d) :=
  after_requirePhase_bind .refl fun _ => .of_eq rfl rfl

theorem level_startEncoding : Level d (after startEncoding d) :=
  after_requirePhase_bind .refl fun _ => .of_eq rfl rfl

theorem level_prepare {contract : Contract} {function : Function} :
    Level d (after (prepare contract function) d) := by
  refine after_bind_trans .trans level_startRegistration fun _ d₁ _ => ?_
  refine after_bind_trans .trans (after_forM .refl .trans (fun _ _ => level_register) d₁) ?_
  exact fun _ _ _ => level_startEncoding

/-- Asking for a value emits nothing. -/
theorem still_valueOf {e : Expr} :
    Ends (valueOf e) d (fun _ d' => d'.path = d.path ∧ d'.constraints = d.constraints)
      fun _ d' => d'.path = d.path ∧ d'.constraints = d.constraints :=
  .valueOf (fun _ _ => ⟨rfl, rfl⟩) (fun _ _ => ⟨rfl, rfl⟩) (fun _ _ _ _ _ => ⟨rfl, rfl⟩)
    (fun _ _ _ _ _ => ⟨rfl, rfl⟩) fun _ _ _ => ⟨rfl, rfl⟩

/-- A gate is opened with the value of the expression, if there is one. -/
theorem after_pushPath (e : Expr) (sign : Bool) (d : Draft) :
    ∃ d₁ : Draft, d₁.path = d.path ∧ d₁.constraints = d.constraints ∧
      after (pushPath e sign) d = match (valueOf e).run d with
        | .ok t _ => d₁.pushed (Gate.term ⟨t, sign⟩)
        | .error .. => d₁ := by
  have h := still_valueOf (d := d) (e := e)
  unfold Ends at h
  rw [after, pushPath, EStateM.run_bind]
  cases hv : (valueOf e).run d with
  | ok t d₁ =>
    rw [hv] at h
    exact ⟨d₁, h.1, h.2, rfl⟩
  | error err d₁ =>
    rw [hv] at h
    exact ⟨d₁, h.1, h.2, rfl⟩

/-- A pop that fails closes nothing. -/
theorem after_popPath (d : Draft) : after popPath d = d.popped := by
  rw [after, run_popPath]
  by_cases hp : d.path = []
  · rw [if_pos hp, popped, hp, List.tail_nil, ← hp]
  · rw [if_neg hp]

/-! ### Operations -/

/-- An operation on the path condition. -/
def Operation.isGating : Operation → Bool
  | .pushPath .. | .pushCondition _ | .popPath => true
  | _ => false

/-- The gates that are open after an operation. -/
def Operation.gates (operation : Operation) (d : Draft) (opened : List Gate) : List Gate :=
  match operation with
  | .pushCondition condition => ⟨condition, true⟩ :: opened
  | .pushPath e sign =>
      match (valueOf e).run d with
      | .ok t _ => ⟨t, sign⟩ :: opened
      | .error .. => opened
  | .popPath => opened.tail
  | _ => opened

theorem Operation.level_run {operation : Operation} (h : operation.isGating = false) (d : Draft) :
    Level d (after operation.run d) := by
  cases operation with
  | startRegistration contract function => exact level_startRegistration
  | register partition declaration => exact level_register
  | startEncoding => exact level_startEncoding
  | prepare contract function => exact level_prepare
  | call action => exact action.level_run d
  | pushPath | pushCondition | popPath => cases h
  | warn | takeDiagnostics | finalize => exact .of_eq rfl rfl

/-- Pushes and pops emit nothing. -/
theorem Operation.constraints_run {operation : Operation} (h : operation.isGating = true)
    (d : Draft) : (after operation.run d).constraints = d.constraints := by
  cases operation with
  | pushCondition condition => rfl
  | popPath =>
    have hpop : after Operation.popPath.run d = d.popped := after_popPath d
    rw [hpop]
    rfl
  | pushPath e sign =>
    obtain ⟨d₁, -, hc, ha⟩ := after_pushPath e sign d
    have hpush : after (Operation.pushPath e sign).run d = _ := ha
    rw [hpush]
    cases (valueOf e).run d with
    | ok | error => exact hc
  | _ => cases h

theorem Operation.stacked_run (operation : Operation) {opened : List Gate}
    (h : Stacked opened d.path) :
    Stacked (operation.gates d opened) (after operation.run d).path := by
  cases operation with
  | pushCondition condition => exact h.pushed ⟨condition, true⟩
  | popPath =>
    have hpop : after Operation.popPath.run d = d.popped := after_popPath d
    rw [hpop]
    exact h.tail
  | pushPath e sign =>
    obtain ⟨d₁, hp, -, ha⟩ := after_pushPath e sign d
    have hpush : after (Operation.pushPath e sign).run d = _ := ha
    have h₁ : Stacked opened d₁.path := hp ▸ h
    rw [hpush]
    dsimp only [Operation.gates]
    cases (valueOf e).run d with
    | ok t _ => exact h₁.pushed ⟨t, sign⟩
    | error => exact h₁
  | _ =>
    rw [(Operation.level_run rfl d).path]
    exact h

/-! ### Logs -/

/-- The gates that are open, the innermost first, and those that were open when the constraints were
emitted. -/
structure Log where
  opened : List Gate := []
  emitted : List (List Gate) := []
  deriving DecidableEq, Repr

namespace Log

/-- The log after one operation on a draft. All that it emits is emitted under the gates that were
open before. -/
def record (log : Log) (d : Draft) (operation : Operation) : Log where
  opened := operation.gates d log.opened
  emitted := log.emitted ++ List.replicate
    ((after operation.run d).constraints.length - d.constraints.length) log.opened

/-- The log after a sequence of operations. -/
def recordAll (log : Log) (d : Draft) : List Operation → Log
  | [] => log
  | operation :: rest => (log.record d operation).recordAll (after operation.run d) rest

/-- The path has the open gates, and the guard of a constraint has those it was emitted under. -/
structure Describes (log : Log) (d : Draft) : Prop where
  opened : Stacked log.opened d.path
  emitted : List.Forall₂ (fun c gates => Conjoins gates c.guard) d.constraints log.emitted

namespace Describes

variable {log : Log}

theorem start (settings : Settings) : Describes {} { settings } := ⟨.nil, .nil⟩

/-- Constraints that are added under the path condition. -/
theorem emitted_append (h : log.Describes d) {new : List Constraint}
    (hg : ∀ c ∈ new, c.guard = d.pathCondition) :
    List.Forall₂ (fun c gates => Conjoins gates c.guard) (d.constraints ++ new)
      (log.emitted ++ List.replicate new.length log.opened) := by
  apply List.rel_append h.emitted
  induction new with
  | nil => exact .nil
  | cons c rest ih =>
    rw [List.forall_mem_cons] at hg
    have hc : Conjoins log.opened c.guard := hg.1 ▸ h.opened.conjoins
    exact .cons hc (ih hg.2)

/-- An operation is either on the path, which emits nothing, or it leaves the path as it is. -/
theorem run (h : log.Describes d) (operation : Operation) :
    (log.record d operation).Describes (after operation.run d) := by
  refine ⟨operation.stacked_run h.opened, ?_⟩
  cases hg : operation.isGating with
  | true =>
    rw [record, operation.constraints_run hg, Nat.sub_self, List.replicate_zero, List.append_nil]
    exact h.emitted
  | false =>
    obtain ⟨new, hc, hguard⟩ := (operation.level_run hg d).constraints
    rw [record, hc, List.length_append, Nat.add_sub_cancel_left]
    exact h.emitted_append hguard

theorem runAll (h : log.Describes d) (operations : List Operation) :
    (log.recordAll d operations).Describes (afterAll operations d) := by
  induction operations generalizing d log with
  | nil => exact h
  | cons operation rest ih => exact ih (h.run operation)

end Describes

end Log

theorem constraints_afterAll_of_isGating {operations : List Operation}
    (h : ∀ operation ∈ operations, operation.isGating = true) (d : Draft) :
    (afterAll operations d).constraints = d.constraints := by
  induction operations generalizing d with
  | nil => rfl
  | cons operation rest ih =>
    rw [List.forall_mem_cons] at h
    exact (ih h.2 _).trans (operation.constraints_run h.1 d)

/-- **Every constraint stands under the gates that were open.** After any operations on a new draft,
the path condition is true where all open gates are, and boolean if their conditions are; a
constraint is true where its fact is or where one of the gates is closed that were open when it was
emitted. What comes later never changes that, and pushes and pops emit nothing. A pop without an
open gate fails and changes nothing; any other succeeds. -/
theorem gates_guard (settings : Settings) (operations : List Operation) :
    let d := afterAll operations { settings }
    let log := Log.recordAll {} { settings } operations
    (∀ m, d.pathCondition.Holds m ↔ ∀ g ∈ log.opened, g.IsOpen m) ∧
    ((∀ g ∈ log.opened, g.condition.HasSort .bool) → d.pathCondition.HasSort .bool) ∧
    d.depth = log.opened.length ∧
    List.Forall₂ (fun c gates => ∀ m,
      c.term.Holds m ↔ c.fact.Holds m ∨ ∃ g ∈ gates, ¬ g.IsOpen m) d.constraints log.emitted ∧
    (∀ later, d.constraints <+: (afterAll later d).constraints ∧
      ((∀ operation ∈ later, operation.isGating = true) →
        (afterAll later d).constraints = d.constraints)) ∧
    (popPath.run d = .error .emptyPath d ↔ log.opened = []) ∧
    (popPath.run d = .ok () d.popped ↔ log.opened ≠ []) := by
  intro d log
  have hl : log.Describes d := (Log.Describes.start settings).runAll operations
  have hlength : d.path.length = log.opened.length := hl.opened.length_eq
  have hempty : d.path = [] ↔ log.opened = [] := by
    rw [← List.length_eq_zero_iff, hlength, List.length_eq_zero_iff]
  refine ⟨hl.opened.conjoins.holds, hl.opened.conjoins.hasSort, hlength, ?_, ?_, ?_, ?_⟩
  · refine hl.emitted.imp fun c gates h m => ?_
    rw [Constraint.holds_term, h.holds m, imp_iff_or_not]
    simp
  · intro later
    exact ⟨constraints_afterAll later d, fun hg => constraints_afterAll_of_isGating hg d⟩
  · rw [← hempty, run_popPath]
    split <;> simp_all
  · rw [ne_eq, ← hempty, run_popPath]
    split <;> simp_all

/-- A marker is assumed inside its own gate and another one, and then inside the opposite gate. -/
def gated : List Operation :=
  [.startRegistration "C" "f", .startEncoding, .call (.define marker (.ofBool true)),
    .pushPath marker true, .pushCondition (.symbol ⟨"p", .bool⟩), .call (.assume marker), .popPath,
    .pushPath marker false, .call (.assume marker)]

theorem gated_guards :
    let d := afterAll gated {}
    let log := Log.recordAll {} {} gated
    let value : Term := .symbol ⟨"expr_2", .bool⟩
    log.opened = [⟨value, false⟩, ⟨value, true⟩] ∧
      log.emitted = [[], [⟨.symbol ⟨"p", .bool⟩, true⟩, ⟨value, true⟩],
        [⟨value, false⟩, ⟨value, true⟩]] ∧
      d.pathCondition.HasSort .bool ∧ (∀ m, ¬ d.pathCondition.Holds m) ∧
      (afterAll [.popPath, .pushCondition value] d).constraints = d.constraints ∧
      popPath.run d = .ok () d.popped := by
  intro d log value
  have hopened : log.opened = [⟨value, false⟩, ⟨value, true⟩] := by decide +kernel
  have hne : log.opened ≠ [] := by simp [hopened]
  have hbool : ∀ g ∈ log.opened, g.condition.HasSort .bool := by
    intro g hg
    simp only [hopened, List.mem_cons, List.not_mem_nil, or_false] at hg
    rcases hg with rfl | rfl
    · exact .symbol
    · exact .symbol
  obtain ⟨hpath, hsort, -, -, hlater, -, hpop⟩ := gates_guard {} gated
  refine ⟨hopened, by decide +kernel, hsort hbool, ?_, ?_, hpop.2 hne⟩
  · intro m hm
    have hopen : ∀ g ∈ log.opened, g.IsOpen m := (hpath m).1 hm
    simp [hopened, Gate.IsOpen] at hopen
  · apply (hlater _).2
    simp [Operation.isGating]

end PathFormula.Draft
