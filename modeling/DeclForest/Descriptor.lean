import DeclForest.External

/-!
The names that a forest gives out, and the descriptors of types that a forest or a registry makes.
Declarations and units are numbered from zero in the order in which they are made; a number that was
never given out is a legal name of nothing.
-/

namespace DeclForest

structure DeclId where
  index : Nat
  deriving DecidableEq, Repr

structure UnitId where
  index : Nat
  deriving DecidableEq, Repr

def DeclId.display (id : DeclId) : String := "#" ++ toString id.index

def UnitId.display (id : UnitId) : String := "unit #" ++ toString id.index

inductive TypeKind where
  | classKind | interfaceKind
  deriving DecidableEq, Repr

def TypeKind.keyword : TypeKind → String
  | .classKind => "class"
  | .interfaceKind => "interface"

/-! ## Type descriptors

A descriptor is what a field type, a superclass or the target of an import is. It is made once by
its issuer, a registry or a forest, and no issuer makes two with one key; so issuer and key together
say which descriptor it is, and the key alone which type it names. -/

inductive Referent where
  | primitive (p : Primitive)
  | external (t : ExternalType)
  | defined (id : DeclId) (name : String) (kind : TypeKind)
  deriving DecidableEq, Repr

/-- Which type a descriptor names, whoever issued it. -/
inductive TypeKey where
  | primitive (p : Primitive)
  | external (qualifiedName : String) (kind : ExternalKind)
  | defined (id : DeclId)
  deriving DecidableEq, Repr

def Referent.key : Referent → TypeKey
  | primitive p => .primitive p
  | external t => .external t.qualifiedName t.kind
  | defined id _ _ => .defined id

structure Descriptor where
  issuer : Nat
  referent : Referent
  deriving DecidableEq, Repr

/-- Which descriptor it is among all that exist. -/
structure Identity where
  issuer : Nat
  key : TypeKey
  deriving DecidableEq, Repr

namespace Descriptor

def key (d : Descriptor) : TypeKey := d.referent.key

def identity (d : Descriptor) : Identity := ⟨d.issuer, d.key⟩

def sameType (a b : Descriptor) : Bool := a.key == b.key

def simpleName (d : Descriptor) : String :=
  match d.referent with
  | .primitive p => p.keyword
  | .external t => t.simpleName
  | .defined _ name _ => name

/-- The name written in messages and imports; a defined type has only its simple name here. -/
def display (d : Descriptor) : String :=
  match d.referent with
  | .external t => t.sourceName
  | _ => d.simpleName

def external? (d : Descriptor) : Option ExternalType :=
  match d.referent with
  | .external t => some t
  | _ => none

def isPrimitive (d : Descriptor) : Bool :=
  match d.referent with
  | .primitive _ => true
  | _ => false

/-- True for external annotations as well. -/
def isInterface (d : Descriptor) : Bool :=
  match d.referent with
  | .primitive _ => false
  | .external t => t.kind.isInterfaceLike
  | .defined _ _ kind => kind = .interfaceKind

/-- True for plain classes only, not for enums. -/
def isClass (d : Descriptor) : Bool :=
  match d.referent with
  | .primitive _ => false
  | .external t => t.kind = .classType
  | .defined _ _ kind => kind = .classKind

end Descriptor

end DeclForest
