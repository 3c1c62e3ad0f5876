import PathFormula.Draft.Body
import PathFormula.Draft.Registration
import PathFormula.Solver.Session

/-!
# Reports

Every function of a contract is drafted on its own. A report has the finished draft or the error
that abandoned it, with the diagnostics of either.
-/
namespace PathFormula

open Source

/-- Assert every constraint of a draft. -/
def Draft.assertInto (d : Draft) (session : Solver.Session) : Solver.Session :=
  d.constraints.foldl (fun session c => session.assert c.term) session

structure FunctionReport where
  contract : String
  function : String
  location : Location
  outcome : Except DraftError Draft
  diagnostics : Diagnostics

namespace FunctionReport

def isEncoded (r : FunctionReport) : Bool := r.outcome.isOk

/-- Check the formula of a function in a scope of its own. A function that was not encoded leaves
the session alone. -/
def check (r : FunctionReport) (session : Solver.Session) (terms : List Term) :
    Option Solver.Outcome × Solver.Session :=
  match r.outcome with
  | .error _ => (none, session)
  | .ok d =>
      let (outcome, session) := (d.assertInto session.push).check terms
      match session.pop with
      | .ok session => (some outcome, session)
      | .error _ => (some outcome, session)

end FunctionReport

namespace Source.Function

/-- What is said about a function before its body is read. -/
def warnings (f : Function) : Drafting Unit := do
  if f.isConstructor then Draft.warn f.location .constructor
  if !f.modifiers.isEmpty then Draft.warn f.location (.modifiers f.modifiers)

def encode (contract : Contract) (f : Function) : Drafting Unit := do
  f.warnings
  Draft.prepare contract f
  discard (Stmt.encodeAll f.returns f.body)

/-- An abandoned function has one error, after its warnings, at the place at fault or else at the
function. -/
def analyze (settings : Settings) (contract : Contract) (f : Function) : FunctionReport :=
  match (f.encode contract).run { settings := settings } with
  | .ok () d =>
      { contract := contract.name
        function := f.name
        location := f.location
        outcome := .ok { d with phase := .finalized, diagnostics := [] }
        diagnostics := d.diagnostics }
  | .error e d =>
      { contract := contract.name
        function := f.name
        location := f.location
        outcome := .error e
        diagnostics := d.diagnostics.report .error (e.location?.getD f.location)
          (.abandoned contract.name f.name e) }

end Source.Function

/-- The reports of several functions with all their diagnostics. -/
structure AnalysisReport where
  functions : List FunctionReport := []
  diagnostics : Diagnostics := []

namespace AnalysisReport

def add (a : AnalysisReport) (r : FunctionReport) : AnalysisReport where
  functions := a.functions ++ [r]
  diagnostics := a.diagnostics ++ r.diagnostics

def append (a b : AnalysisReport) : AnalysisReport where
  functions := a.functions ++ b.functions
  diagnostics := a.diagnostics ++ b.diagnostics

/-- The first report on a function of that name in a contract of that name. -/
def function? (a : AnalysisReport) (contract function : String) : Option FunctionReport :=
  a.functions.find? fun r => r.contract == contract && r.function == function

def encoded (a : AnalysisReport) : List FunctionReport :=
  a.functions.filter FunctionReport.isEncoded

def failed (a : AnalysisReport) : List FunctionReport :=
  a.functions.filter fun r => !r.isEncoded

def warnings (a : AnalysisReport) : Diagnostics := a.diagnostics.warnings

end AnalysisReport

def Source.Contract.analyze (settings : Settings) (contract : Contract) : AnalysisReport :=
  contract.functions.foldl (fun a f => a.add (f.analyze settings contract)) {}

/-- The contracts of a source unit, one after the other. -/
def analyzeUnit (settings : Settings) (contracts : List Contract) : AnalysisReport :=
  contracts.foldl (fun a c => a.append (c.analyze settings)) {}

end PathFormula
