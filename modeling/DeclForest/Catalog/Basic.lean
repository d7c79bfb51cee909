import DeclForest.Registry

/-!
Catalogs of external types and members, and the outline of one: the texts, lists and records that it
is written as, whichever the notation.
-/

namespace DeclForest

inductive Outline where
  | text (content : String)
  | list (items : List Outline)
  | record (fields : List (String × Outline))
  deriving Repr

structure Catalog where
  types : List ExternalType
  members : List ExternalMember
  deriving DecidableEq, Repr

namespace Catalog

def findType? (c : Catalog) (name : String) : Option ExternalType :=
  c.types.find? fun t => t.qualifiedName == name

def findMember? (c : Catalog) (typeName name : String) : Option ExternalMember :=
  c.members.find? fun m => m.declaringType.qualifiedName == typeName && m.name == name

def staticMembers (c : Catalog) : List ExternalMember := c.members.filter ExternalMember.isStatic

def wrapAll (c : Catalog) (r : Registry) : Except Fault (List Descriptor) × Registry :=
  r.wrapEach .anyType c.types

end Catalog

/-! ## The outline of a catalog

The order of the fields is that of the keys below. A missing superclass and an empty list of
interfaces are left out; all else is written. -/

def typeKeys : List String := ["qualified_name", "kind", "superclass", "interfaces"]

def memberKeys : List String := ["declaring_type", "name", "kind", "modifiers"]

def catalogKeys : List String := ["types", "members"]

namespace ExternalType

mutual

def outline : ExternalType → Outline
  | ⟨name, kind, superclass, interfaces⟩ =>
    .record ([("qualified_name", .text name), ("kind", .text kind.word)] ++
      superclassField superclass ++ interfacesField interfaces)

def superclassField : Option ExternalType → List (String × Outline)
  | none => []
  | some t => [("superclass", outline t)]

def interfacesField : List ExternalType → List (String × Outline)
  | [] => []
  | t :: rest => [("interfaces", .list (outline t :: outlines rest))]

def outlines : List ExternalType → List Outline
  | [] => []
  | t :: rest => outline t :: outlines rest

end

theorem outlines_eq_map (ts : List ExternalType) : outlines ts = ts.map outline := by
  induction ts with
  | nil => simp [outlines]
  | cons t rest ih => simp [outlines, ih]

end ExternalType

def ExternalMember.outline (m : ExternalMember) : Outline :=
  .record [("declaring_type", m.declaringType.outline), ("name", .text m.name),
    ("kind", .text m.kind.word), ("modifiers", .text m.modifiers.spell)]

def Catalog.fields (c : Catalog) : List (String × Outline) :=
  [("types", .list (c.types.map ExternalType.outline)),
    ("members", .list (c.members.map ExternalMember.outline))]

end DeclForest
