import PathFormula.SExpr
import PathFormula.Solver.Settings

/-!
# Replies of a solver

The first non-blank line of a reply is the verdict. When values were asked for, a satisfiable
verdict is followed by one list with a pair of a term and its value for every term asked.
-/
namespace PathFormula.Solver

inductive Verdict where
  | satisfiable
  | unsatisfiable
  | unknown
  | error
  deriving DecidableEq, Repr

def Verdict.text : Verdict → String
  | .satisfiable => "sat"
  | .unsatisfiable => "unsat"
  | .unknown => "unknown"
  | .error => "error"

def Verdict.isSat (v : Verdict) : Bool := v = .satisfiable
def Verdict.isUnsat (v : Verdict) : Bool := v = .unsatisfiable
def Verdict.isUnknown (v : Verdict) : Bool := v = .unknown
def Verdict.isError (v : Verdict) : Bool := v = .error

/-- A verdict with the values of the terms asked for. -/
structure Outcome where
  verdict : Verdict
  values : List String
  deriving DecidableEq, Repr

namespace Outcome

def bare (verdict : Verdict) : Outcome := ⟨verdict, []⟩

def error : Outcome := bare .error

end Outcome

def pairValue : SExpr → Except Failure String
  | .list [_, value] => .ok value.text
  | entry => .error (.unreadable ("Malformed value entry: " ++ entry.text))

/-- The values of a reply of the form `((t v) (t v) ...)`, in canonical text. -/
def readValues (reply : List Char) : Except Failure (List String) :=
  let reply := Text.trim reply
  match SExpr.read reply with
  | .error e => .error (.unreadable e.message)
  | .ok (.atom _) =>
      .error (.unreadable ("Expected a value list, got: " ++ String.ofList reply))
  | .ok (.list entries) => entries.mapM pairValue

/-- What follows a satisfiable verdict when `expected` values were asked for. -/
def readModel (expected : Nat) (rest : List Char) : Except Failure Outcome :=
  match readValues rest with
  | .error e => .error e
  | .ok values =>
      if values.length = expected then .ok ⟨.satisfiable, values⟩
      else
        .error (.unreadable ("Expected " ++ toString expected ++ " values, solver returned "
          ++ toString values.length))

/-- Read what a solver wrote to its two outputs. A trimmed reply starts with its first non-blank
line, and a line that is the word `sat` alone is three characters long. -/
def readReply (output errors : String) (expected : Nat) : Except Failure Outcome :=
  let reply := Text.trim output.toList
  if reply.isEmpty then
    if Text.occurs "timeout".toList errors.toList then .ok (.bare .unknown)
    else .error (.unreadable ("Empty solver output. stderr: " ++ errors))
  else
    let line := String.ofList (Text.trim (Text.firstLine reply))
    if line = "unsat" then .ok (.bare .unsatisfiable)
    else if line = "unknown" ∨ line = "timeout" then .ok (.bare .unknown)
    else if line = "sat" then
      if expected = 0 then .ok (.bare .satisfiable) else readModel expected (reply.drop 3)
    else if "(error".toList.isPrefixOf line.toList then .error (.process line)
    else .error (.unreadable ("Unexpected solver output: " ++ line))

end PathFormula.Solver
