import PathFormula.Script
import PathFormula.Solver.Reply

/-!
# Solver sessions

A session keeps declarations and assertions in nested scopes. A name is declared at most once
over all open scopes, in the scope that is innermost when it is first needed; closing a scope
forgets what it declared. The base scope is never closed.
-/
namespace PathFormula.Solver

structure Frame where
  declarations : List Symbol := []
  assertions : List Term := []
  deriving DecidableEq, Repr

/-- Something that answers queries. An answer may depend on the queries asked before. -/
structure Runner where
  answer : List String → String → Except Failure String
  asked : List String := []

namespace Runner

/-- Prepared answers, handed out in order; then every query times out. -/
def prepared (answers : List (Except Failure String)) : Runner where
  answer asked _ := (answers[asked.length]?).getD (.error .timeout)

def ask (runner : Runner) (query : String) : Except Failure String × Runner :=
  (runner.answer runner.asked query, { runner with asked := runner.asked ++ [query] })

end Runner

/-- The open scopes above the base are listed from the innermost outwards. -/
structure Session where
  base : Frame := {}
  scopes : List Frame := []
  declared : List String := []
  runner : Option Runner := none

namespace Session

def withRunner (session : Session) (runner : Runner) : Session :=
  { session with runner := some runner }

/-- The frames from the base inwards. -/
def frames (session : Session) : List Frame := session.base :: session.scopes.reverse

def depth (session : Session) : Nat := session.scopes.length

def declarations (session : Session) : List Symbol := session.frames.flatMap Frame.declarations

def assertions (session : Session) : List Term := session.frames.flatMap Frame.assertions

def modifyInnermost (session : Session) (change : Frame → Frame) : Session :=
  match session.scopes with
  | [] => { session with base := change session.base }
  | frame :: outer => { session with scopes := change frame :: outer }

def declare (session : Session) (s : Symbol) : Session :=
  if s.name ∈ session.declared then session
  else
    { session with declared := s.name :: session.declared }.modifyInnermost fun frame =>
      { frame with declarations := frame.declarations ++ [s] }

/-- Declare a name and hand out the term for it. -/
def constant (session : Session) (name : String) (sort : TermSort) : Term × Session :=
  (.leaf name sort, session.declare ⟨name, sort⟩)

def assert (session : Session) (t : Term) : Session :=
  (t.freeSymbols.foldl declare session).modifyInnermost fun frame =>
    { frame with assertions := frame.assertions ++ [t] }

def push (session : Session) : Session := { session with scopes := {} :: session.scopes }

def pop (session : Session) : Except Failure Session :=
  match session.scopes with
  | [] => .error (.unsupported "pop without matching push")
  | frame :: outer =>
      let names := frame.declarations.map Symbol.name
      .ok { session with
        scopes := outer
        declared := session.declared.filter fun name => name ∉ names }

/-- Back to an empty base scope; the runner stays. -/
def reset (session : Session) : Session := { runner := session.runner }

def script (session : Session) : Script :=
  session.declarations.map Command.declare ++ session.assertions.map Command.assert

def text (session : Session) : String := session.script.text

/-- The free symbols of the terms to evaluate whose names no open scope declares. -/
def missing (session : Session) (terms : List Term) : List Symbol :=
  (Term.freeSymbolsOf terms).filter fun s => s.name ∉ session.declared

def query (session : Session) (terms : List Term) : Script :=
  (if terms.isEmpty then [] else [.setOption "produce-models" "true"])
    ++ session.script
    ++ (session.missing terms).map Command.declare
    ++ [.checkSat]
    ++ (if terms.isEmpty then [] else [.getValue terms])

def queryText (session : Session) (terms : List Term) : String :=
  (session.query terms).text ++ "\n"

/-- Ask for the verdict on the live assertions and for the values of `terms`. Without a runner,
and on any failure, the outcome is an error. -/
def check (session : Session) (terms : List Term) : Outcome × Session :=
  match session.runner with
  | none => (.error, session)
  | some runner =>
      let (answer, runner) := runner.ask (session.queryText terms)
      let session := session.withRunner runner
      match answer with
      | .error _ => (.error, session)
      | .ok output =>
          match readReply output "" terms.length with
          | .ok outcome => (outcome, session)
          | .error _ => (.error, session)

theorem pop_eq_error {session : Session} (h : session.scopes = []) :
    session.pop = .error (.unsupported "pop without matching push") := by
  simp [pop, h]

end Session

end PathFormula.Solver
