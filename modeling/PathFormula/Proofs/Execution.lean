import Mathlib.Logic.Function.Basic
import PathFormula.Draft.Registration
import PathFormula.Proofs.Models

/-!
# Execution of functions

The reference meaning of source functions. Expressions are evaluated from left to right over
unbounded integers, and statements run from store to store. A run that fails an assertion, reads
what is no variable or breaks a rule has no result.
-/
namespace PathFormula.Source

/-- The values of the variables. -/
abbrev Store := Nat → Option Value

structure Rules where
  /-- The quotient of a number and zero. A run without one ends. -/
  byZero : Int → Option Int
  /-- Whether a value may be stored in a variable. -/
  admits : Nat → Value → Bool

namespace Rules

/-- Division by zero has the quotients of a function, and variables take all values. -/
def unbounded (byZero : Int → Int) : Rules := ⟨fun a => some (byZero a), fun _ _ => true⟩

/-- Change a variable. -/
def write (rules : Rules) (σ : Store) (id : Nat) (x : Value) : Option Store :=
  if (σ id).isSome && rules.admits id x then some (Function.update σ id (some x)) else none

/-- Change a variable that may have been left out for its type. -/
def give (rules : Rules) (σ : Store) (id : Nat) (x : Value) : Option Store :=
  if (σ id).isSome then rules.write σ id x else some σ

/-- Move a variable by one step, with its value before or after it. -/
def step (rules : Rules) (id : Nat) (change : Int) (isBefore : Bool) (σ : Store) :
    Option (Value × Store) := do
  let old ← σ id
  let new := .int (old.number + change)
  let σ ← rules.write σ id new
  return (if isBefore then new else old, σ)

end Rules

/-- Signed quotients are truncated toward zero, and the quotient of a negative number and zero is
the opposite of that of its absolute value. Unsigned types are divided as the specification has it,
by the native division of the solver, which leaves a remainder that is not negative. Between natural
numbers this truncates as well. For a negative dividend it does not, where the division leaves a
remainder. -/
def IntegerType.quotient (ty : IntegerType) (byZero : Int → Option Int) (a b : Int) : Option Int :=
  if b ≠ 0 then some (if ty.signed then a.tdiv b else a / b)
  else if ty.signed ∧ a < 0 then (byZero (-a)).map fun q => -q
  else byZero a

def Arithmetic.eval (op : Arithmetic) (byZero : Int → Option Int) (ty : IntegerType) (a b : Int) :
    Option Int :=
  match op with
  | .add => some (a + b)
  | .sub => some (a - b)
  | .mul => some (a * b)
  | .div => ty.quotient byZero a b

def Comparison.eval (op : Comparison) (a b : Value) : Bool :=
  match op with
  | .eq => a = b
  | .ne => a ≠ b
  | .lt => a.number < b.number
  | .le => a.number ≤ b.number
  | .gt => a.number > b.number
  | .ge => a.number ≥ b.number

namespace Expr

/-- The value of an expression and the store after it. The second side of a connective is only
evaluated where the first leaves the result open. -/
def eval (rules : Rules) : Expr → Store → Option (Value × Store)
  | .literal _ (.bool b), σ => some (.bool b, σ)
  | .literal _ (.number q), σ => if q.den = 1 then some (.int q.num, σ) else none
  | .identifier _ _ (some id) _, σ => (σ id).map fun x => (x, σ)
  | .unary _ op isBefore operand, σ =>
      match op with
      | .not => (operand.eval rules σ).map fun (x, σ) => (.bool (!x.truth), σ)
      | .increment => operand.referenced?.bind fun id => rules.step id 1 isBefore σ
      | .decrement => operand.referenced?.bind fun id => rules.step id (-1) isBefore σ
      | .plus => operand.eval rules σ
      | .minus => (operand.eval rules σ).map fun (x, σ) => (.int (-x.number), σ)
      | .bitNot | .delete => none
  | .binary _ op left right common, σ =>
      match op with
      | .arithmetic op => do
          let ty ← common.integer?
          let (x, σ) ← left.eval rules σ
          let (y, σ) ← right.eval rules σ
          let z ← op.eval rules.byZero ty x.number y.number
          return (.int z, σ)
      | .comparison op => do
          let (x, σ) ← left.eval rules σ
          let (y, σ) ← right.eval rules σ
          return (.bool (op.eval x y), σ)
      | .connective .and => do
          let (x, σ) ← left.eval rules σ
          if x.truth then right.eval rules σ else return (.bool false, σ)
      | .connective .or => do
          let (x, σ) ← left.eval rules σ
          if x.truth then return (.bool true, σ) else right.eval rules σ
      | .mod | .exp | .bitwise _ => none
  | .assignment _ op target value, σ => do
      let id ← target.referenced?
      let (x, σ) ← value.eval rules σ
      let y ← match op with
        | .plain => some x
        | .arithmetic op => do
            let ty ← target.ty.integer?
            let old ← σ id
            (op.eval rules.byZero ty old.number x.number).map .int
        | .mod | .bitwise _ => none
      let σ ← rules.write σ id y
      return (y, σ)
  | .tuple _ [single] false, σ => single.eval rules σ
  | _, _ => none

def test (rules : Rules) (e : Expr) (σ : Store) : Option (Bool × Store) :=
  (e.eval rules σ).map fun (x, σ) => (x.truth, σ)

/-- The condition of a call to `require` or `assert`. -/
def asserted? : Expr → Option Expr
  | .call _ callee [condition] =>
      match callee.ty with
      | .function .require | .function .assert => some condition
      | _ => none
  | _ => none

end Expr

/-- How a statement ends: the next one follows, or the function is left. -/
inductive Flow where
  | next
  | returned
  deriving DecidableEq, Repr

/-- How one turn of a loop ends. -/
inductive Turn where
  | again
  | leave (flow : Flow)
  deriving DecidableEq, Repr

def Flow.turn : Flow → Turn
  | .next => .again
  | .returned => .leave .returned

/-- Take turns until one leaves the loop, at most a number of times. -/
def takeTurns (turn : Store → Option (Turn × Store)) : Nat → Store → Option (Flow × Store)
  | 0, _ => none
  | n + 1, σ => do
      match ← turn σ with
      | (.leave flow, σ) => return (flow, σ)
      | (.again, σ) => takeTurns turn n σ

/-- One turn of a loop that is tested before its body. -/
def turnTestFirst (test : Store → Option (Bool × Store)) (body : Store → Option (Flow × Store))
    (step : Store → Option Store) (σ : Store) : Option (Turn × Store) := do
  let (isOpen, σ) ← test σ
  if isOpen then
    let (flow, σ) ← body σ
    match flow with
    | .next => return (.again, ← step σ)
    | .returned => return (.leave .returned, σ)
  else return (.leave .next, σ)

/-- One turn of a loop that is tested after its body. -/
def turnBodyFirst (test : Store → Option (Bool × Store)) (body : Store → Option (Flow × Store))
    (σ : Store) : Option (Turn × Store) := do
  let (flow, σ) ← body σ
  match flow with
  | .next =>
      let (isOpen, σ) ← test σ
      return (if isOpen then .again else .leave .next, σ)
  | .returned => return (.leave .returned, σ)

/-- The value of a variable that is declared without one. -/
def Declaration.zero (d : Declaration) : Value :=
  match d.ty.domain with
  | .ok domain => .zero domain.sort
  | .error _ => .zero .int

namespace Stmt

mutual

/-- Run a statement of a function with the given return slots; every loop takes at most `fuel`
turns at a time. -/
def exec (rules : Rules) (returns : List Declaration) (fuel : Nat) :
    Stmt → Store → Option (Flow × Store)
  | .block _ body, σ => execAll rules returns fuel body σ
  | .declare _ [declaration] initial, σ => do
      let (x, σ) ← match initial with
        | none => some (declaration.zero, σ)
        | some e => e.eval rules σ
      return (.next, ← rules.give σ declaration.id x)
  | .declare .., _ => none
  | .expression _ e, σ =>
      match e.asserted? with
      | some condition => do
          let (holds, σ) ← condition.test rules σ
          if holds then return (.next, σ) else none
      | none => (e.eval rules σ).map fun (_, σ) => (.next, σ)
  | .branch _ condition yes no, σ => do
      let (holds, σ) ← condition.test rules σ
      if holds then yes.exec rules returns fuel σ
      else match no with
        | none => return (.next, σ)
        | some no => no.exec rules returns fuel σ
  | .whileLoop _ condition body isBodyFirst, σ =>
      let run := body.exec rules returns fuel
      if isBodyFirst then takeTurns (turnBodyFirst (condition.test rules) run) fuel σ
      else takeTurns (turnTestFirst (condition.test rules) run some) fuel σ
  | .forLoop _ start condition step body, σ => do
      let (flow, σ) ← match start with
        | none => some (.next, σ)
        | some start => start.exec rules returns fuel σ
      let test := match condition with
        | none => fun σ => some (true, σ)
        | some condition => condition.test rules
      let next := match step with
        | none => some
        | some step => fun σ => (step.eval rules σ).map Prod.snd
      match flow with
      | .next => takeTurns (turnTestFirst test (body.exec rules returns fuel) next) fuel σ
      | .returned => return (.returned, σ)
  | .ret _ none, σ => some (.returned, σ)
  | .ret _ (some e), σ => do
      let (x, σ) ← e.eval rules σ
      match returns with
      | [slot] => return (.returned, ← rules.give σ slot.id x)
      | _ => return (.returned, σ)

def execAll (rules : Rules) (returns : List Declaration) (fuel : Nat) :
    List Stmt → Store → Option (Flow × Store)
  | [], σ => some (.next, σ)
  | s :: rest, σ => do
      let (flow, σ) ← s.exec rules returns fuel σ
      match flow with
      | .next => execAll rules returns fuel rest σ
      | .returned => return (.returned, σ)

end

end Stmt

end Source

/-- The values of a declared type. -/
def Domain.admits : Domain → Value → Bool
  | .bool, .bool _ => true
  | .integer ty, .int n => ty.min ≤ n && n ≤ ty.max
  | _, _ => false

/-- State variables and parameters start with any value of their type, the others at zero. -/
def Partition.starts (partition : Partition) (domain : Domain) (x : Value) : Bool :=
  match partition with
  | .state | .parameter => domain.admits x
  | .local | .return => x = .zero domain.sort

namespace Source

/-- The variables of a function: its declarations of types that have terms. -/
def entries (contract : Contract) (f : Function) : List (Partition × Nat × Domain) :=
  (Draft.declarations contract f).filterMap fun (partition, declaration) =>
    match declaration.ty.domain with
    | .ok domain => some (partition, declaration.id, domain)
    | .error _ => none

/-- The role and the values of the variable with a number. -/
def role? (contract : Contract) (f : Function) (id : Nat) : Option (Partition × Domain) :=
  (entries contract f).findSome? fun (partition, i, domain) =>
    if i = id then some (partition, domain) else none

/-- The types of the variables of a function. -/
def domain? (contract : Contract) (f : Function) (id : Nat) : Option Domain :=
  (role? contract f id).map Prod.snd

/-- Runs that never divide by zero and keep every variable in the range of its type. -/
def Rules.careful (contract : Contract) (f : Function) : Rules where
  byZero _ := none
  admits id x := (domain? contract f id).any fun domain => domain.admits x

namespace Function

/-- The stores a function may be entered with. -/
def Starts (contract : Contract) (f : Function) (σ : Store) : Prop :=
  ∀ id, match role? contract f id with
    | some (partition, domain) => ∃ x, σ id = some x ∧ partition.starts domain x
    | none => σ id = none

/-- The function has a run between two stores. -/
def Runs (rules : Rules) (contract : Contract) (f : Function) (initial final : Store) : Prop :=
  f.Starts contract initial ∧
    ∃ fuel flow, Stmt.execAll rules f.returns fuel f.body initial = some (flow, final)

end Function

end Source

end PathFormula
