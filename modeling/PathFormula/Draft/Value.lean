import PathFormula.Draft.Basic

/-!
# Values of expressions and variables

An expression that was encoded has a symbol for its value. Reading a variable gives the symbol of
its current version, and every write moves it to a fresh version first.
-/
namespace PathFormula

open Source

/-- The sort of the symbol for an expression. -/
def Source.Expr.termSort (e : Expr) : Except DraftError TermSort :=
  match e.ty with
  | .rational value =>
      if value.den = 1 then .ok .int else .error (.fractionalLiteral value e.location)
  | .integer _ => .ok .int
  | .bool => .ok .bool
  | ty => .error (.unimplementedType ty e.location)

def Source.Expr.hasTermSort (e : Expr) : Bool := e.termSort.isOk

namespace Draft

/-- Give an expression its symbol. -/
def name (e : Expr) : Drafting Term := do
  match e.termSort with
  | .error err => throw err
  | .ok sort =>
      modify fun d => { d with known := (e.id, sort) :: d.known }
      return .symbol (expressionSymbol e.id sort)

/-- Give an expression a symbol and leave its value open. Doing so twice only warns. -/
def create (e : Expr) : Drafting Unit := do
  requireEncoding
  match (← get).expression? e.id with
  | some _ => warn e.location .createdTwice
  | none => discard (name e)

/-- The symbol of an encoded expression. A missing one is an error in a strict draft, and else an
unknown. -/
def valueOf (e : Expr) : Drafting Term := do
  let d ← get
  match d.expression? e.id with
  | some t => return t
  | none =>
      if d.settings.isStrict then throw (.undefinedExpression e.id e.location)
      warn e.location .undefinedExpression
      requireEncoding
      name e

/-- Emit that the value of an expression is a term. -/
def define (e : Expr) (value : Term) : Drafting Unit := do
  requireEncoding
  let symbol ← match (← get).expression? e.id with
    | some t => pure t
    | none => name e
  emit (.eq symbol value) e.location

def defineFrom (e source : Expr) : Drafting Unit := do
  define e (← valueOf source)

def defineFromVariable (e : Expr) (id : Nat) : Drafting Unit := do
  match (← get).current? id with
  | some t => define e t
  | none =>
      match e with
      | .identifier _ name _ _ => warn e.location (.unknownName name)
      | _ => warn e.location (.unknownDeclaration id)

/-- Move a variable to a fresh version and emit what is known of it. -/
def write (id : Nat) (location : Location) (fact : Variable → Term) : Drafting Unit := do
  requireEncoding
  match (← get).registered? id with
  | none => warn location (.unknownDeclaration id)
  | some v =>
      modify fun d =>
        { d with registry := d.registry.map fun w =>
            if w.id = id then { w with toVariable := w.advance } else w }
      emit (fact v.advance) location

def assign (id : Nat) (value : Term) (location : Location) : Drafting Unit :=
  write id location fun v => .eq v.current value

def assignFrom (id : Nat) (source : Expr) (location : Location) : Drafting Unit := do
  assign id (← valueOf source) location

/-- Forget all about a variable but its type. -/
def forget (id : Nat) (location : Location) : Drafting Unit :=
  write id location Variable.rangeFact

/-- Join two branches in a fresh version of a variable. -/
def merge (id : Nat) (condition yes no : Term) (location : Location) : Drafting Unit :=
  assign id (.ite condition yes no) location

/-- Emit that a boolean expression holds. -/
def assume (e : Expr) : Drafting Unit := do
  requireEncoding
  if e.ty.isBool then emit (← valueOf e) e.location
  else warn e.location (.conditionType e.ty)

/-- Open a branch. -/
def pushCondition (condition : Term) : Drafting Unit :=
  modify fun d =>
    let current := d.pathCondition
    { d with path := (if current.isTrue then condition else .and current condition) :: d.path }

/-- Open the branch in which a boolean expression is `sign`. -/
def pushPath (e : Expr) (sign : Bool) : Drafting Unit := do
  let condition ← valueOf e
  pushCondition (if sign then condition else .not condition)

def popPath : Drafting Unit := do
  match (← get).path with
  | [] => throw .emptyPath
  | _ :: outer => modify fun d => { d with path := outer }

/-- A symbol that is there is handed out in every phase. -/
theorem run_valueOf_of_known {d : Draft} {e : Expr} {t : Term} (h : d.expression? e.id = some t) :
    (valueOf e).run d = .ok t d := by
  unfold valueOf
  change (match d.expression? e.id with
    | some t => (pure t : Drafting Term)
    | none => _) d = _
  rw [h]
  rfl

end Draft

end PathFormula
