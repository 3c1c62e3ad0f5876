import PathFormula.Draft.Operation
import PathFormula.OrderedSet

/-!
# Bodies

Expressions are encoded after their parts. The two sides of a branch are encoded one after the
other under opposite conditions and joined. A loop is encoded once, with the variables it writes
forgotten before and after. What follows a return is encoded under the negation of the path
condition the return was taken on.
-/
namespace PathFormula

open Source

namespace Draft

/-- A number that is a constant stands for itself; other literals have no term. -/
def literal (e : Expr) (value : Literal) : Drafting Unit := do
  match e.ty, value with
  | .bool, .bool b => define e (.ofBool b)
  | .integer _, .number n | .rational _, .number n =>
      if n.den = 1 then define e (.ofInt n.num) else create e
  | _, _ => warn e.location .literalType

/-- Name the value of an expression that is not encoded, if its type has terms. -/
def leaveOpen (e : Expr) : Drafting Unit := do
  if e.hasTermSort then create e

/-- An identifier that is read. Targets and function names are not. -/
def identifier (e : Expr) (name : String) (declaration : Option Nat) (isTarget : Bool) :
    Drafting Unit := do
  match isTarget, e.ty with
  | true, _ | _, .function _ => return
  | false, _ =>
      match declaration with
      | some id => defineFromVariable e id
      | none => warn e.location (.identifier name)

/-- A component in parentheses stands for the whole. -/
def tuple (e : Expr) (components : List Expr) (isInlineArray : Bool) : Drafting Unit := do
  match components, isInlineArray with
  | [single], false => if e.hasTermSort then defineFrom e single
  | _, _ => warn e.location .tuple

end Draft

namespace Source.Expr

mutual

def encode : Expr → Drafting Unit
  | .literal node value => Draft.literal (.literal node value) value
  | .identifier node name declaration isTarget =>
      Draft.identifier (.identifier node name declaration isTarget) name declaration isTarget
  | .unary node op isBefore operand => do
      operand.encode
      Draft.unary (.unary node op isBefore operand)
  | .binary node op left right common => do
      left.encode
      right.encode
      Draft.binary (.binary node op left right common)
  | .assignment node op target value => do
      value.encode
      target.encode
      Draft.assignment (.assignment node op target value)
  | .tuple node components isInlineArray => do
      encodeAll components
      Draft.tuple (.tuple node components isInlineArray) components isInlineArray
  | .call node callee arguments =>
      match callee.ty with
      | .function .require | .function .assert =>
          match arguments with
          | [] => Draft.warn node.location .missingCondition
          | condition :: _ => do
              condition.encode
              Draft.assume condition
      | _ => do
          encodeAll arguments
          Draft.warn node.location .call
          Draft.leaveOpen (.call node callee arguments)
  | .index node base position => do
      Draft.warn node.location .indexAccess
      Draft.leaveOpen (.index node base position)
  | .member node base name => do
      Draft.warn node.location .memberAccess
      Draft.leaveOpen (.member node base name)

def encodeAll : List Expr → Drafting Unit
  | [] => return
  | e :: rest => do
      e.encode
      encodeAll rest

end

end Source.Expr

namespace Draft

/-- Declared variables start with their initial value, or at zero. -/
def declare (location : Location) (declarations : List Declaration) (initial : Option Expr) :
    Drafting Unit := do
  if let some value := initial then value.encode
  match declarations with
  | [declaration] =>
      match (← get).sort? declaration.id with
      | none => return
      | some sort =>
          match initial with
          | some value => assignFrom declaration.id value location
          | none => assign declaration.id (.zero sort) location
  | _ =>
      warn location .manyDeclarations
      declarations.forM fun declaration => do
        if (← get).isRegistered declaration.id then forget declaration.id location

/-- Join the versions at the ends of two branches. A variable that has the same version at both
ends was written before the second branch could read it, or in neither; then the second branch
has the version from before. -/
def mergeVersions (guard : Term) (before yes no : Versions) (location : Location) :
    Drafting Unit :=
  before.forM fun (id, version) => do
    let yesVersion := (yes.lookup id).getD version
    let noVersion := (no.lookup id).getD version
    if yesVersion = version ∧ noVersion = version then return
    let noVersion := if noVersion = yesVersion then version else noVersion
    let d ← get
    match d.term? id yesVersion, d.term? id noVersion with
    | some yesTerm, some noTerm => merge id guard yesTerm noTerm location
    | _, _ => return

/-- Give every variable that the first branch wrote the value from before the branch again. -/
def restore (before yes : Versions) (location : Location) : Drafting Unit :=
  before.forM fun (id, version) => do
    if yes.lookup id ≠ some version then
      match (← get).term? id version with
      | some old => assign id old location
      | none => return

def forgetAll (ids : List Nat) (location : Location) : Drafting Unit :=
  ids.forM fun id => do
    if (← get).isRegistered id then forget id location

/-- Numbers in increasing order, each once. -/
def ordered (ids : List Nat) : List Nat := OrderedSet.ofList (fun a b => decide (a < b)) ids

/-- Assign a returned value to the only return slot. -/
def giveBack (location : Location) (returns : List Declaration) (value : Expr) :
    Drafting Unit := do
  match returns with
  | [slot] => if (← get).isRegistered slot.id then assignFrom slot.id value location
  | _ => warn location .manyReturns

end Draft

namespace Source.Stmt

mutual

/-- Encode a statement of a function with the given return slots. The answer has the path
condition of every return inside it. -/
def encode (returns : List Declaration) : Stmt → Drafting (List Term)
  | .block _ body => encodeAll returns body
  | .declare location declarations initial => do
      Draft.declare location declarations initial
      return []
  | .expression _ e => do
      e.encode
      return []
  | .branch location condition yes no => do
      condition.encode
      let guard ← Draft.valueOf condition
      let before := (← get).versions
      Draft.pushPath condition true
      let yesExits ← yes.encode returns
      Draft.popPath
      let afterYes := (← get).versions
      let noExits ← match no with
        | none => pure []
        | some no => do
            Draft.pushPath condition false
            Draft.restore before afterYes location
            let exits ← no.encode returns
            Draft.popPath
            pure exits
      let afterNo := (← get).versions
      Draft.mergeVersions guard before afterYes afterNo location
      return yesExits ++ noExits
  | .whileLoop location condition body isBodyFirst => do
      Draft.warn location .loop
      let written := Draft.ordered (body.writes ++ condition.writes)
      Draft.forgetAll written location
      if isBodyFirst then
        let exits ← body.encode returns
        condition.encode
        Draft.forgetAll written location
        return exits
      else
        condition.encode
        Draft.pushPath condition true
        let exits ← body.encode returns
        Draft.popPath
        Draft.forgetAll written location
        return exits
  | .forLoop location start condition step body => do
      let startExits ← match start with
        | none => pure []
        | some start => start.encode returns
      Draft.warn location .loop
      let written := Draft.ordered (body.writes ++ writesOfExpr condition ++ writesOfExpr step)
      Draft.forgetAll written location
      if let some condition := condition then
        condition.encode
        Draft.pushPath condition true
      let exits ← body.encode returns
      if let some step := step then step.encode
      if condition.isSome then Draft.popPath
      Draft.forgetAll written location
      return startExits ++ exits
  | .ret location value => do
      if let some value := value then
        value.encode
        Draft.giveBack location returns value
      return [(← get).pathCondition]

/-- Encode statements one after the other. After a statement with returns inside it, the rest is
a branch of its own that runs where none of them was taken. -/
def encodeAll (returns : List Declaration) : List Stmt → Drafting (List Term)
  | [] => return []
  | s :: rest => do
      let exits ← s.encode returns
      match Term.disjunction? exits with
      | none => encodeAll returns rest
      | some taken =>
          let guard : Term := .not taken
          let before := (← get).versions
          Draft.pushCondition guard
          let later ← encodeAll returns rest
          Draft.popPath
          Draft.mergeVersions guard before (← get).versions before s.location
          return exits ++ later

end

end Source.Stmt

end PathFormula
