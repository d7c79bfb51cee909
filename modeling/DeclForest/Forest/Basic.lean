import DeclForest.Declaration

/-!
Forests of declarations. All declarations and units of a forest stand in two numbered tables; who
owns what is recorded twice, as the owner of a declaration and as the collections of its owner.
-/

namespace DeclForest

inductive Owner where
  | unit (id : UnitId)
  | type (id : DeclId)
  deriving DecidableEq, Repr

structure Declaration where
  content : Content
  owner : Option Owner
  comments : Comments
  deriving DecidableEq, Repr

structure CompilationUnit where
  package : Option DeclId
  imports : List DeclId
  staticImports : List DeclId
  types : List DeclId
  deriving DecidableEq, Repr

def CompilationUnit.empty : CompilationUnit := ⟨none, [], [], []⟩

structure Forest where
  number : Nat
  decls : Array Declaration
  units : Array CompilationUnit
  deriving DecidableEq, Repr

namespace Forest

def empty (number : Nat) : Forest := ⟨number, #[], #[]⟩

def get? (f : Forest) (id : DeclId) : Option Declaration := f.decls[id.index]?

def unit? (f : Forest) (id : UnitId) : Option CompilationUnit := f.units[id.index]?

def owner? (f : Forest) (id : DeclId) : Option Owner := (f.get? id).bind Declaration.owner

def type? (f : Forest) (id : DeclId) : Option TypeDefinition :=
  (f.get? id).bind fun d => d.content.type?

def describe (f : Forest) (id : DeclId) : String :=
  match f.get? id with
  | some d => d.content.describe id
  | none => id.display

def describeOwner (f : Forest) : Owner → String
  | .unit u => u.display
  | .type t => f.describe t

def declaration (f : Forest) (id : DeclId) : Except Fault Declaration :=
  match f.get? id with
  | some d => .ok d
  | none => .error (.unknownDeclaration id.display)

def unit (f : Forest) (id : UnitId) : Except Fault CompilationUnit :=
  match f.unit? id with
  | some u => .ok u
  | none => .error (.unknownDeclaration id.display)

def typeDefinition (f : Forest) (id : DeclId) : Except Fault TypeDefinition :=
  (f.declaration id).bind fun d =>
    match d.content.type? with
    | some t => .ok t
    | none => .error (.illegalOwner (f.describe id) "a member position that requires a type")

def updateDecl (f : Forest) (id : DeclId) (change : Declaration → Declaration) : Forest :=
  { f with decls := f.decls.modify id.index change }

def updateUnit (f : Forest) (id : UnitId) (change : CompilationUnit → CompilationUnit) : Forest :=
  { f with units := f.units.modify id.index change }

def updateType (f : Forest) (id : DeclId) (change : TypeDefinition → TypeDefinition) : Forest :=
  f.updateDecl id fun d =>
    match d.content with
    | .type t => { d with content := .type (change t) }
    | _ => d

@[simp] theorem get?_updateDecl (f : Forest) (id x : DeclId) (change : Declaration → Declaration) :
    (f.updateDecl id change).get? x = if x = id then (f.get? x).map change else f.get? x := by
  obtain ⟨i⟩ := id
  obtain ⟨j⟩ := x
  simp only [get?, updateDecl, Array.getElem?_modify, DeclId.mk.injEq, eq_comm]

@[simp] theorem unit?_updateDecl (f : Forest) (id : DeclId) (u : UnitId)
    (change : Declaration → Declaration) : (f.updateDecl id change).unit? u = f.unit? u :=
  rfl

@[simp] theorem unit?_updateUnit (f : Forest) (u x : UnitId)
    (change : CompilationUnit → CompilationUnit) :
    (f.updateUnit u change).unit? x = if x = u then (f.unit? x).map change else f.unit? x := by
  obtain ⟨i⟩ := u
  obtain ⟨j⟩ := x
  simp only [unit?, updateUnit, Array.getElem?_modify, UnitId.mk.injEq, eq_comm]

@[simp] theorem get?_updateUnit (f : Forest) (u : UnitId) (id : DeclId)
    (change : CompilationUnit → CompilationUnit) : (f.updateUnit u change).get? id = f.get? id :=
  rfl

/-- A copy with a number of its own. It keeps the descriptors that were issued so far. -/
def fork (f : Forest) (number : Nat) : Forest := { f with number := number }

end Forest

end DeclForest

/-! ## The way up

The ancestors of a declaration are itself and the types around it, the innermost first; a chain of
owners can be no longer than the number of declarations, which bounds the walk. -/

namespace DeclForest.Forest

def ancestorsWithin (f : Forest) : Nat → DeclId → List DeclId
  | 0, id => [id]
  | n + 1, id =>
    match f.owner? id with
    | some (.type parent) => id :: f.ancestorsWithin n parent
    | _ => [id]

def ancestors (f : Forest) (id : DeclId) : List DeclId := f.ancestorsWithin f.decls.size id

def nestingLevel (f : Forest) (id : DeclId) : Nat := (f.ancestors id).length - 1

def enclosingUnit? (f : Forest) (id : DeclId) : Option UnitId :=
  match (f.ancestors id).getLast?.bind f.owner? with
  | some (.unit u) => some u
  | _ => none

def packageName? (f : Forest) (u : UnitId) : Option String :=
  match ((f.unit? u).bind CompilationUnit.package).bind f.get? with
  | some ⟨.package name, _, _⟩ => some name
  | _ => none

def qualifiedName (f : Forest) (id : DeclId) : Except Fault String := do
  let types ← (f.ancestors id).mapM f.typeDefinition
  let package := ((f.enclosingUnit? id).bind f.packageName?).toList
  return ".".intercalate (package ++ (types.map TypeDefinition.name).reverse)

end DeclForest.Forest
