/-!
# Solvers and their settings

Which program answers queries, where it lies, and how it is called. Whether a path names a file
is not known here; the functions that depend on it take the test as an argument.
-/
namespace PathFormula

inductive Solver where
  | z3
  | cvc5
  deriving DecidableEq, Repr

namespace Solver

def text : Solver → String
  | .z3 => "Z3"
  | .cvc5 => "CVC5"

def binaryName : Solver → String
  | .z3 => "z3"
  | .cvc5 => "cvc5"

/-- The arguments for one query. A limit of zero milliseconds is no limit. -/
def commandLine (solver : Solver) (limit : Nat) : List String :=
  match solver with
  | .z3 => ["-in", "-smt2"] ++ timeLimit ("-t:" ++ toString limit)
  | .cvc5 =>
      ["--lang", "smt2", "--produce-models", "--incremental"]
        ++ timeLimit ("--tlimit=" ++ toString limit)
where
  timeLimit (argument : String) : List String := if limit > 0 then [argument] else []

/-- Why no answer was obtained. -/
inductive Failure where
  | notFound (solver : Solver) (path : String)
  | process (report : String)
  | unreadable (reason : String)
  | timeout
  | unsupported (request : String)
  deriving DecidableEq, Repr

def Failure.message : Failure → String
  | .notFound solver path => solver.text ++ " binary not found at: " ++ path
  | .process report => "Solver process error: " ++ report
  | .unreadable reason => "Failed to parse solver output: " ++ reason
  | .timeout => "Solver timeout exceeded"
  | .unsupported request => "Unsupported solver request: " ++ request

/-- A solver, its path, and the limit for one query in milliseconds. -/
structure Settings where
  solver : Solver
  path : String
  limit : Nat := 0
  deriving DecidableEq, Repr

namespace Settings

def withLimit (settings : Settings) (limit : Nat) : Settings := { settings with limit }

def arguments (settings : Settings) : List String := settings.solver.commandLine settings.limit

def validate (isFile : String → Bool) (settings : Settings) : Except Failure Unit :=
  if isFile settings.path then .ok () else .error (.notFound settings.solver settings.path)

/-- A name inside a directory; the empty directory is the current one. -/
def inDirectory (directory name : String) : String :=
  if directory.isEmpty || directory.endsWith "/" then directory ++ name
  else directory ++ "/" ++ name

/-- The first directory of a search path that has the solver's binary. -/
def locate (isFile : String → Bool) (searchPath : String) (solver : Solver) :
    Except Failure Settings :=
  let candidates := (searchPath.splitOn ":").map fun d => inDirectory d solver.binaryName
  match candidates.find? isFile with
  | some path => .ok { solver := solver, path := path }
  | none => .error (.notFound solver solver.binaryName)

/-- A search that names no solver looks for Z3. -/
def locateDefault (isFile : String → Bool) (searchPath : String) : Except Failure Settings :=
  locate isFile searchPath .z3

/-- Ask the solver of these settings through `run`, once its path is known to be a file. -/
def ask (isFile : String → Bool) (run : Settings → String → Except Failure String)
    (settings : Settings) (query : String) : Except Failure String :=
  match settings.validate isFile with
  | .error e => .error e
  | .ok () => run settings query

end Settings

end Solver

end PathFormula
