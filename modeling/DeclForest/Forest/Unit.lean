import DeclForest.Forest.Registration
import DeclForest.Registry

/-!
Compilation units: the package slot, imports without repetition, and batches of imports. All
references of a batch are resolved first, so that a refused one leaves the forest as it was; what
was resolved before stays known to the registry.
-/

namespace DeclForest

def Content.sameImport : Content → Content → Bool
  | .typeImport a, .typeImport b => a.sameType b
  | .staticImport a m, .staticImport b n => a.sameType b && m == n
  | _, _ => false

namespace Forest

def setPackageDefinition (u : UnitId) (id : DeclId) : Edit Unit := do
  let d ← Edit.inspect (·.declaration id)
  match d.content with
  | .package _ => register id (.unit u)
  | _ => throw (.illegalOwner ((← get).describe id) "the package slot")

def setPackage (u : UnitId) (name : String) : Edit DeclId := do
  let _ ← Edit.inspect (·.unit u)
  let id ← declare (.package name)
  setPackageDefinition u id
  return id

def addToUnit (u : UnitId) (id : DeclId) : Edit Unit := register id (.unit u)

def findImport (f : Forest) (u : UnitId) (c : Content) : Except Fault (Option DeclId) :=
  (f.unit u).map fun unit => (unit.imports ++ unit.staticImports).find? fun id =>
    (f.get? id).any fun d => d.content.sameImport c

def importOnce (u : UnitId) (c : Content) : Edit DeclId := do
  match ← Edit.inspect (·.findImport u c) with
  | some id => return id
  | none =>
    let id ← declare c
    addToUnit u id
    return id

def importType (u : UnitId) (target : Descriptor) : Edit DeclId := do
  let _ ← Edit.inspect (·.unit u)
  importOnce u (← ofExcept (Content.importing target))

def importCollected (f : Forest) (u : UnitId) :
    Except Fault (List Content) × Registry → Except Fault (List DeclId) × Forest × Registry
  | (.error fault, r) => (.error fault, f, r)
  | (.ok contents, r) =>
    let (ids, f) := (contents.mapM (importOnce u)).run f
    (ids, f, r)

def importTypes (f : Forest) (r : Registry) (u : UnitId) (types : List ExternalType) :
    Except Fault (List DeclId) × Forest × Registry :=
  match f.unit u with
  | .error fault => (.error fault, f, r)
  | .ok _ => f.importCollected u (r.collect .anyType id (fun _ d => Content.importing d) types)

/-- All members are checked to be static before the registry hears of any. -/
def importStatic (f : Forest) (r : Registry) (u : UnitId) (members : List ExternalMember) :
    Except Fault (List DeclId) × Forest × Registry :=
  match f.unit u with
  | .error fault => (.error fault, f, r)
  | .ok _ =>
    match members.find? fun m => !m.isStatic with
    | some m => (.error (.illegalImport m.qualifiedName), f, r)
    | none =>
      f.importCollected u (r.collect .anyType ExternalMember.declaringType
        (fun m d => Content.importingStatic d m.name) members)

def allMembers (f : Forest) (u : UnitId) : Except Fault (List DeclId) :=
  (f.unit u).map fun unit =>
    unit.package.toList ++ unit.staticImports ++ unit.imports ++ unit.types

def bodyMembers (f : Forest) (u : UnitId) : Except Fault (List DeclId) :=
  (f.unit u).map CompilationUnit.types

end Forest

end DeclForest
