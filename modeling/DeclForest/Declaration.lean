import DeclForest.Descriptor

/-!
Declarations: members of types, types, and what a compilation unit holds beside them. A value here
stands on its own; a forest gives it an owner. Every way to set modifiers, a superclass or an import
target goes through a check, so that a declaration is legal from the start.
-/

namespace DeclForest

structure Comments where
  doc : Option String
  block : Option String
  lines : List String
  deriving DecidableEq, Repr

def Comments.none : Comments := ⟨Option.none, Option.none, []⟩

structure Parameter where
  name : String
  type : Descriptor
  isFinal : Bool
  deriving DecidableEq, Repr

def Parameter.display (p : Parameter) : String :=
  (if p.isFinal then "final " else "") ++ p.type.simpleName ++ " " ++ p.name

structure Field where
  name : String
  type : Descriptor
  modifiers : Modifiers
  initializer : Option String
  deriving DecidableEq, Repr

structure Method where
  name : String
  returns : Descriptor
  modifiers : Modifiers
  parameters : List Parameter
  throws : List Descriptor
  /-- Absent for a method that is only declared. -/
  body : Option (List String)
  deriving DecidableEq, Repr

structure Constructor where
  modifiers : Modifiers
  parameters : List Parameter
  throws : List Descriptor
  body : List String
  deriving DecidableEq, Repr

inductive Placement where
  | topLevel | inClass | inInterface
  deriving DecidableEq, Repr

def TypeKind.construct : TypeKind → Placement → ConstructKind
  | .classKind, .topLevel => .topClass
  | .interfaceKind, .topLevel => .topInterface
  | .classKind, .inClass => .nestedClass
  | .interfaceKind, .inClass => .nestedInterface
  | .classKind, .inInterface => .interfaceMemberClass
  | .interfaceKind, .inInterface => .interfaceMemberInterface

structure TypeDefinition where
  kind : TypeKind
  name : String
  modifiers : Modifiers
  superclass : Option Descriptor
  superInterfaces : List Descriptor
  members : List DeclId
  /-- The forest that issued the descriptor of this type, once one was asked for. -/
  issuer : Option Nat
  deriving DecidableEq, Repr

def Field.withModifiers (f : Field) (m : Modifiers) : Except Fault Field :=
  (ConstructKind.field.check m).map fun _ => { f with modifiers := m }

def Method.withModifiers (f : Method) (m : Modifiers) : Except Fault Method :=
  (ConstructKind.method.check m).map fun _ => { f with modifiers := m }

def Constructor.withModifiers (c : Constructor) (m : Modifiers) : Except Fault Constructor :=
  (ConstructKind.constructor.check m).map fun _ => { c with modifiers := m }

namespace TypeDefinition

def ofName (kind : TypeKind) (name : String) : TypeDefinition :=
  ⟨kind, name, .empty, none, [], [], none⟩

/-- A type without an owner has the modifiers of a nested one. -/
def withModifiers (t : TypeDefinition) (m : Modifiers) : Except Fault TypeDefinition :=
  ((t.kind.construct .inClass).check m).map fun _ => { t with modifiers := m }

def extending (t : TypeDefinition) (super : Descriptor) : Except Fault TypeDefinition :=
  if t.kind ≠ .classKind then
    .error (.invalidClass t.name "a class that can extend another class")
  else if !super.isClass then .error (.invalidClass super.display "a superclass")
  else .ok { t with superclass := some super }

def lists (t : TypeDefinition) (face : Descriptor) : Bool :=
  t.superInterfaces.any fun known => known.sameType face

def implementing (t : TypeDefinition) (face : Descriptor) : TypeDefinition :=
  if t.lists face then t else { t with superInterfaces := t.superInterfaces ++ [face] }

def addMember (t : TypeDefinition) (id : DeclId) : TypeDefinition :=
  if id ∈ t.members then t else { t with members := t.members ++ [id] }

def fresh (t : TypeDefinition) : TypeDefinition := { t with members := [], issuer := none }

end TypeDefinition

inductive Content where
  | field (f : Field)
  | method (m : Method)
  | constructor (c : Constructor)
  | initializer (body : List String)
  | staticInitializer (body : List String)
  | type (t : TypeDefinition)
  | package (name : String)
  | typeImport (target : Descriptor)
  | staticImport (target : Descriptor) (member : String)
  deriving DecidableEq, Repr

inductive OwnerKind where
  | unitOwner | classOwner | interfaceOwner
  deriving DecidableEq, Repr

namespace Content

def importing (target : Descriptor) : Except Fault Content :=
  if target.isPrimitive then .error (.invalidClass target.display "an importable type")
  else .ok (.typeImport target)

def importingStatic (target : Descriptor) (member : String) : Except Fault Content :=
  if target.isPrimitive then .error (.invalidClass target.display "a type with static members")
  else .ok (.staticImport target member)

def modifiers : Content → Modifiers
  | field f => f.modifiers
  | method m => m.modifiers
  | constructor c => c.modifiers
  | staticInitializer _ => .ofFlag .static
  | type t => t.modifiers
  | initializer _ | package _ | typeImport _ | staticImport .. => .empty

/-- The modifiers of initializer blocks are fixed; for the other declarations without a set of
their own the empty set is the only one. -/
def setModifiers (m : Modifiers) : Content → Content
  | field f => field { f with modifiers := m }
  | method f => method { f with modifiers := m }
  | constructor c => constructor { c with modifiers := m }
  | type t => type { t with modifiers := m }
  | other => other

/-- The construct whose mask applies under an owner of a kind, or without one; none if an owner of
that kind cannot hold the declaration, and for what only units hold. -/
def construct? : Content → Option OwnerKind → Option ConstructKind
  | field _, none | field _, some .classOwner => some .field
  | field _, some .interfaceOwner => some .interfaceField
  | method _, none | method _, some .classOwner => some .method
  | method _, some .interfaceOwner => some .interfaceMethod
  | constructor _, none | constructor _, some .classOwner => some .constructor
  | initializer _, none | initializer _, some .classOwner => some .initializer
  | staticInitializer _, none | staticInitializer _, some .classOwner => some .staticInitializer
  | type t, none | type t, some .classOwner => some (t.kind.construct .inClass)
  | type t, some .interfaceOwner => some (t.kind.construct .inInterface)
  | type t, some .unitOwner => some (t.kind.construct .topLevel)
  | _, _ => none

def fits (c : Content) (owner : OwnerKind) : Bool :=
  match c with
  | package _ | typeImport _ | staticImport .. => owner = .unitOwner
  | _ => (c.construct? (some owner)).isSome

def isField : Content → Bool
  | field _ => true
  | _ => false

def type? : Content → Option TypeDefinition
  | type t => some t
  | _ => none

def fresh : Content → Content
  | type t => type t.fresh
  | other => other

def describe (id : DeclId) : Content → String
  | field f => "field `" ++ f.name ++ "`"
  | method m => "method `" ++ m.name ++ "`"
  | constructor _ => "constructor " ++ id.display
  | initializer _ => "initializer " ++ id.display
  | staticInitializer _ => "static initializer " ++ id.display
  | type t => t.kind.keyword ++ " `" ++ t.name ++ "`"
  | package name => "package `" ++ name ++ "`"
  | typeImport target => "import of `" ++ target.display ++ "`"
  | staticImport target member =>
    "static import of `" ++ target.display ++ "." ++ member ++ "`"

end Content

end DeclForest
