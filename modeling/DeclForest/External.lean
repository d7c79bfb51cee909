import DeclForest.Modifiers

/-!
References to what lies outside a forest: the primitive types, types known by qualified name, and
their members. A reference records the superclass and the interfaces it was described with.
-/

namespace DeclForest

inductive Primitive where
  | void | boolean | byte | char | short | int | long | float | double
  deriving DecidableEq, Repr

namespace Primitive

def all : List Primitive := [void, boolean, byte, char, short, int, long, float, double]

def keyword : Primitive → String
  | void => "void"
  | boolean => "boolean"
  | byte => "byte"
  | char => "char"
  | short => "short"
  | int => "int"
  | long => "long"
  | float => "float"
  | double => "double"

def ofKeyword? (keyword : String) : Option Primitive := all.find? fun p => p.keyword == keyword

end Primitive

inductive ExternalKind where
  | primitiveType | classType | interfaceType | annotationType | enumType
  deriving DecidableEq, Repr

namespace ExternalKind

def all : List ExternalKind := [primitiveType, classType, interfaceType, annotationType, enumType]

def word : ExternalKind → String
  | primitiveType => "primitive"
  | classType => "class"
  | interfaceType => "interface"
  | annotationType => "annotation"
  | enumType => "enum"

def ofWord? (word : String) : Option ExternalKind := all.find? fun k => k.word == word

def isInterfaceLike : ExternalKind → Bool
  | interfaceType | annotationType => true
  | _ => false

theorem ofWord?_word (k : ExternalKind) : ofWord? k.word = some k := by cases k <;> decide

end ExternalKind

structure ExternalType where
  qualifiedName : String
  kind : ExternalKind
  superclass : Option ExternalType
  interfaces : List ExternalType
  deriving Repr

namespace ExternalType

def sourceName (t : ExternalType) : String := Text.sourceName t.qualifiedName

def simpleName (t : ExternalType) : String := Text.simpleName t.qualifiedName

mutual

protected def decEq : (a b : ExternalType) → Decidable (a = b)
  | ⟨name, kind, sup, faces⟩, ⟨name', kind', sup', faces'⟩ =>
    match decEq name name', decEq kind kind', ExternalType.decEqOption sup sup',
        ExternalType.decEqList faces faces' with
    | isTrue hn, isTrue hk, isTrue hs, isTrue hf => isTrue (by rw [hn, hk, hs, hf])
    | isFalse hn, _, _, _ => isFalse fun h => hn (ExternalType.mk.inj h).1
    | _, isFalse hk, _, _ => isFalse fun h => hk (ExternalType.mk.inj h).2.1
    | _, _, isFalse hs, _ => isFalse fun h => hs (ExternalType.mk.inj h).2.2.1
    | _, _, _, isFalse hf => isFalse fun h => hf (ExternalType.mk.inj h).2.2.2

protected def decEqOption : (a b : Option ExternalType) → Decidable (a = b)
  | none, none => isTrue rfl
  | none, some _ => isFalse (by simp)
  | some _, none => isFalse (by simp)
  | some a, some b =>
    match ExternalType.decEq a b with
    | isTrue h => isTrue (by rw [h])
    | isFalse h => isFalse fun e => h (Option.some.inj e)

protected def decEqList : (a b : List ExternalType) → Decidable (a = b)
  | [], [] => isTrue rfl
  | [], _ :: _ => isFalse (by simp)
  | _ :: _, [] => isFalse (by simp)
  | a :: as, b :: bs =>
    match ExternalType.decEq a b, ExternalType.decEqList as bs with
    | isTrue h, isTrue hs => isTrue (by rw [h, hs])
    | isFalse h, _ => isFalse fun e => h (List.cons.inj e).1
    | _, isFalse hs => isFalse fun e => hs (List.cons.inj e).2

end

instance : DecidableEq ExternalType := ExternalType.decEq

end ExternalType

inductive MemberKind where
  | field | method
  deriving DecidableEq, Repr

namespace MemberKind

def all : List MemberKind := [field, method]

def word : MemberKind → String
  | field => "field"
  | method => "method"

def ofWord? (word : String) : Option MemberKind := all.find? fun k => k.word == word

theorem ofWord?_word (k : MemberKind) : ofWord? k.word = some k := by cases k <;> decide

end MemberKind

structure ExternalMember where
  declaringType : ExternalType
  name : String
  kind : MemberKind
  modifiers : Modifiers
  deriving DecidableEq, Repr

namespace ExternalMember

def isStatic (m : ExternalMember) : Bool := m.modifiers.isStatic

def qualifiedName (m : ExternalMember) : String := m.declaringType.sourceName ++ "." ++ m.name

end ExternalMember

end DeclForest
