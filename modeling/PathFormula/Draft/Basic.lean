import PathFormula.Draft.Diagnostic
import PathFormula.Draft.Quotient
import PathFormula.Draft.Variable
import PathFormula.Script

/-!
# Drafts

A draft is the formula of one function under construction: the registered variables with their
versions, the expressions that have a symbol, the open path conditions, and the constraints
emitted so far. A step on a draft is a `Drafting` computation; when it fails, what it did before
the failure stays.
-/
namespace PathFormula

/-- One conjunct of a formula: `fact` wherever `guard` holds. -/
structure Constraint where
  guard : Term
  fact : Term
  location : Source.Location
  deriving DecidableEq, Repr

/-- A guard that is the constant `true` is left out. -/
def Constraint.term (c : Constraint) : Term :=
  if c.guard.isTrue then c.fact else .implies c.guard c.fact

/-- The role in which a variable was registered. -/
inductive Partition where
  | state
  | parameter
  | local
  | return
  deriving DecidableEq, Repr

namespace Partition

def all : List Partition := [.state, .parameter, .local, .return]

/-- State variables and parameters start anywhere in their type, the others at zero. -/
def startFact (partition : Partition) (v : Variable) : Term :=
  match partition with
  | .state | .parameter => v.rangeFact
  | .local | .return => v.zeroFact

end Partition

structure Registered extends Variable where
  partition : Partition
  deriving DecidableEq, Repr

structure Settings where
  /-- Every division also states that its divisor is not zero. -/
  guardsDivision : Bool := false
  /-- A value that was never encoded is an error, and not an unknown. -/
  isStrict : Bool := false
  deriving DecidableEq, Repr

/-- The registered variables are kept in the order of their declarations' numbers, `known` has
the sort of every expression with a symbol, and `path` starts with the innermost condition. -/
structure Draft where
  contract : String := ""
  function : String := ""
  settings : Settings := {}
  phase : Phase := .created
  registry : List Registered := []
  known : List (Nat × TermSort) := []
  path : List Term := []
  constraints : List Constraint := []
  diagnostics : Diagnostics := []
  deriving DecidableEq, Repr

/-- The version of every registered variable, in the order of declaration numbers. -/
abbrev Versions := List (Nat × Nat)

abbrev Drafting := EStateM DraftError Draft

namespace Draft

def registered? (d : Draft) (id : Nat) : Option Registered := d.registry.find? fun v => v.id == id

def isRegistered (d : Draft) (id : Nat) : Bool := (d.registered? id).isSome

def partition? (d : Draft) (id : Nat) : Option Partition := (d.registered? id).map (·.partition)

def version? (d : Draft) (id : Nat) : Option Nat := (d.registered? id).map (·.version)

def current? (d : Draft) (id : Nat) : Option Term := (d.registered? id).map (·.current)

def sort? (d : Draft) (id : Nat) : Option TermSort := (d.registered? id).map (·.sort)

/-- The term of one version of a variable. -/
def term? (d : Draft) (id version : Nat) : Option Term :=
  (d.registered? id).map (·.term version)

/-- The variables of one partition after those of another. -/
def byPartition (d : Draft) : List Registered :=
  Partition.all.flatMap fun partition => d.registry.filter fun v => v.partition = partition

def versions (d : Draft) : Versions := d.registry.map fun v => (v.id, v.version)

/-- The symbol that stands for the value of an expression. -/
def expressionSymbol (id : Nat) (sort : TermSort) : Symbol := ⟨"expr_" ++ toString id, sort⟩

def expression? (d : Draft) (id : Nat) : Option Term :=
  (d.known.lookup id).map fun sort => .symbol (expressionSymbol id sort)

/-- The conjunction of the open conditions. -/
def pathCondition (d : Draft) : Term := d.path.head?.getD (.ofBool true)

def depth (d : Draft) : Nat := d.path.length

/-- The conjunction of what every constraint says. -/
def formula (d : Draft) : Term := .conjunction (d.constraints.map Constraint.term)

def script (d : Draft) : Script := .ofAssertions (d.constraints.map Constraint.term)

/-- The script as a solver reads it. -/
def text (d : Draft) : String := d.script.text

def warn (location : Source.Location) (notice : Notice) : Drafting Unit :=
  modify fun d => { d with diagnostics := d.diagnostics.report .warning location notice }

/-- The diagnostics so far, which the draft no longer has afterwards. -/
def takeDiagnostics : Drafting Diagnostics :=
  modifyGet fun d => (d.diagnostics, { d with diagnostics := [] })

/-- A finalized draft has an error of its own. -/
def requirePhase (phase : Phase) (activity : Activity) : Drafting Unit := do
  let d ← get
  if d.phase = phase then return
  else if d.phase = .finalized then throw .finalized
  else throw (.wrongPhase activity d.phase)

def requireEncoding : Drafting Unit := requirePhase .encoding .encode

/-- Emit a constraint under the current path condition. -/
def emit (fact : Term) (location : Source.Location) : Drafting Unit :=
  modify fun d =>
    { d with constraints := d.constraints ++ [{ guard := d.pathCondition, fact, location }] }

/-- No more constraints are taken. -/
def finalize : Drafting Unit := modify fun d => { d with phase := .finalized }

theorem run_requirePhase (d : Draft) (phase : Phase) (activity : Activity) :
    (requirePhase phase activity).run d =
      if d.phase = phase then .ok () d
      else if d.phase = .finalized then .error .finalized d
      else .error (.wrongPhase activity d.phase) d := by
  change (if d.phase = phase then (pure () : Drafting Unit)
    else if d.phase = .finalized then throw .finalized
    else throw (.wrongPhase activity d.phase)) d = _
  split
  · rfl
  · split <;> rfl

end Draft

end PathFormula
