import PathFormula.Draft.Basic
import PathFormula.OrderedSet

/-!
# Registration of variables

Before a body is encoded, the variables it may speak of are registered, each with a fact about
its first version.
-/
namespace PathFormula.Draft

open Source

def startRegistration (contract function : String) : Drafting Unit := do
  requirePhase .created .startRegistration
  modify fun d => { d with contract, function, phase := .registering }

def startEncoding : Drafting Unit := do
  requirePhase .registering .startEncoding
  modify fun d => { d with phase := .encoding }

def enter (v : Registered) : Drafting Unit :=
  modify fun d =>
    { d with registry := OrderedSet.insert (fun a b => decide (a.id < b.id)) v d.registry }

/-- A variable of an unsupported type is left out with a warning; a number that is taken already
is an error. -/
def register (partition : Partition) (declaration : Declaration) : Drafting Unit := do
  requirePhase .registering .registerVariable
  match Variable.ofDeclaration declaration with
  | .error e => warn declaration.location (.variableType e.ty)
  | .ok v =>
      if (← get).isRegistered v.id then
        throw (.duplicateDeclaration declaration.name declaration.id declaration.location)
      enter { v with partition }
      emit (partition.startFact v) declaration.location

/-- The declarations of a function in the order of their registration. Of the state variables
only those of a value type take part. -/
def declarations (contract : Contract) (function : Function) : List (Partition × Declaration) :=
  (contract.stateVariables.filter fun v => v.ty.isValue).map (.state, ·)
    ++ function.parameters.map (.parameter, ·)
    ++ function.locals.map (.local, ·)
    ++ function.returns.map (.return, ·)

/-- Register everything a function declares and open the draft for its body. -/
def prepare (contract : Contract) (function : Function) : Drafting Unit := do
  startRegistration contract.name function.name
  (declarations contract function).forM fun (partition, declaration) =>
    register partition declaration
  startEncoding

/-- A new draft, prepared for a function. -/
def forFunction (contract : Contract) (function : Function) (settings : Settings) :
    Except DraftError Draft :=
  match (prepare contract function).run { settings := settings } with
  | .ok () d => .ok d
  | .error e _ => .error e

end PathFormula.Draft
