import DeclForest.Forest.Edit

/-!
Registration gives a declaration its owner. `checkRegistration` only looks and says in which order
the reasons to refuse count. `commit` writes both records of the new ownership, one after the other,
and looks up again what it writes to; `attach` is what becomes of a forest where no look-up fails.
-/

namespace DeclForest

/-- The outcome of a check that found nothing to refuse. -/
inductive Verdict where
  | alreadyThere | pending
  deriving DecidableEq, Repr

namespace CompilationUnit

def addUnique (ids : List DeclId) (id : DeclId) : List DeclId :=
  if id ∈ ids then ids else ids ++ [id]

def hold (u : CompilationUnit) (id : DeclId) : Content → CompilationUnit
  | .package _ => { u with package := some id }
  | .typeImport _ => { u with imports := addUnique u.imports id }
  | .staticImport .. => { u with staticImports := addUnique u.staticImports id }
  | _ => { u with types := addUnique u.types id }

end CompilationUnit

namespace Forest

def ownerKind (f : Forest) : Owner → Except Fault OwnerKind
  | .unit u => (f.unit u).map fun _ => .unitOwner
  | .type id => do
    match (← f.declaration id).content.type? with
    | some t => return if t.kind = .classKind then .classOwner else .interfaceOwner
    | none => throw (.illegalOwner "a member" (f.describe id))

def ownerIsWithin (f : Forest) (id : DeclId) : Owner → Bool
  | .type parent => id ∈ f.ancestors parent
  | .unit _ => false

def checkRegistration (f : Forest) (id : DeclId) (o : Owner) : Except Fault Verdict := do
  let d ← f.declaration id
  let kind ← f.ownerKind o
  match d.owner with
  | some current =>
    if current = o then return .alreadyThere
    else throw (.ownershipConflict (f.describe id) (f.describeOwner current) (f.describeOwner o))
  | none =>
    if !d.content.fits kind then throw (.illegalOwner (f.describe id) (f.describeOwner o))
    else if f.ownerIsWithin id o then throw (.cyclicOwnership (f.describe id) (f.describeOwner o))
    else
      match d.content.construct? (some kind) with
      | some construct =>
        construct.check d.content.modifiers
        return .pending
      | none => return .pending

def setOwner (f : Forest) (id : DeclId) (o : Option Owner) : Forest :=
  f.updateDecl id fun d => { d with owner := o }

def replacedPackage? (f : Forest) (id : DeclId) (u : UnitId) : Content → Option DeclId
  | .package _ => ((f.unit? u).bind CompilationUnit.package).filter (· ≠ id)
  | _ => none

def attachToUnit (f : Forest) (id : DeclId) (u : UnitId) (c : Content) : Forest :=
  let held := (f.updateUnit u (·.hold id c)).setOwner id (some (.unit u))
  match f.replacedPackage? id u c with
  | some previous => held.setOwner previous none
  | none => held

def attach (f : Forest) (id : DeclId) : Owner → Forest
  | .type parent => (f.setOwner id (some (.type parent))).updateType parent (·.addMember id)
  | .unit u =>
    match f.get? id with
    | some d => f.attachToUnit id u d.content
    | none => f

/-- Writes the owner of a declaration, unless another one is written there. -/
def recordOwner (id : DeclId) (o : Owner) : Edit Unit := do
  let d ← Edit.inspect (·.declaration id)
  match d.owner with
  | some current =>
    if current = o then Edit.change (·.setOwner id (some o))
    else
      let f ← get
      throw (.ownershipConflict (f.describe id) (f.describeOwner current) (f.describeOwner o))
  | none => Edit.change (·.setOwner id (some o))

/-- The writing half of a registration. What was written before a look-up fails stays written. -/
def commit (id : DeclId) : Owner → Edit Unit
  | .type parent => do
    recordOwner id (.type parent)
    let _ ← Edit.inspect (·.typeDefinition parent)
    Edit.change (·.updateType parent (·.addMember id))
  | .unit u => do
    let d ← Edit.inspect (·.declaration id)
    let _ ← Edit.inspect (·.unit u)
    let replaced := (← get).replacedPackage? id u d.content
    Edit.change (·.updateUnit u (·.hold id d.content))
    recordOwner id (.unit u)
    match replaced with
    | some previous =>
      let _ ← Edit.inspect (·.declaration previous)
      Edit.change (·.setOwner previous none)
    | none => return

/-- Gives a declaration its owner; a second time at the same owner nothing happens. -/
def register (id : DeclId) (o : Owner) : Edit Unit := do
  match ← Edit.inspect (·.checkRegistration id o) with
  | .alreadyThere => return
  | .pending => commit id o

def checkModifiers (f : Forest) (id : DeclId) (m : Modifiers) : Except Fault Unit := do
  let kind ← (f.owner? id).mapM f.ownerKind
  let d ← f.declaration id
  match d.content.construct? kind with
  | some construct => construct.check m
  | none => unless m.isEmpty do throw (.invalidModifier m.display (f.describe id))

def setModifiers (id : DeclId) (m : Modifiers) : Edit Unit := do
  Edit.inspect (·.checkModifiers id m)
  Edit.change (·.updateDecl id fun d => { d with content := d.content.setModifiers m })

end Forest

end DeclForest
