import DeclForest.Catalog.Basic

/-!
Catalogs from documents. A `Format` says how a notation presents records, lists and texts; the rules
for catalogs are the same for all. The number that goes down with each step into a document is how
many records and lists may still be opened.
-/

namespace DeclForest.Catalog

/-- What a notation offers of its nodes. Opening a record or a list takes the number of those that
may be open and fails when it is zero. -/
structure Format (ν : Type) (m : Type → Type) where
  refuse : {α : Type} → m α
  /-- The values of the given keys; a key may be absent but not repeated, other keys are ignored. -/
  record : Nat → List String → ν → m (List (Option ν))
  list : Nat → ν → m (List ν)
  text : ν → m String
  word : Nat → ν → m String
  /-- None for a node that stands for nothing. -/
  optional : ν → m (Option ν)

variable {ν : Type} {m : Type → Type} [Monad m]

def orRefuse {α : Type} (format : Format ν m) : Option α → m α
  | some a => pure a
  | none => format.refuse

def orElse {α : Type} (absent : α) (read : ν → m α) : Option ν → m α
  | some v => read v
  | none => pure absent

def items {α : Type} (format : Format ν m) (read : Nat → ν → m α) (n : Nat) (v : ν) :
    m (List α) := do
  (← format.list n v).mapM (read (n - 1))

def kindOf (format : Format ν m) (n : Nat) (v : ν) : m ExternalKind := do
  orRefuse format (ExternalKind.ofWord? (← format.word n v))

def memberKindOf (format : Format ν m) (n : Nat) (v : ν) : m MemberKind := do
  orRefuse format (MemberKind.ofWord? (← format.word n v))

def modifiersOf (format : Format ν m) (v : ν) : m Modifiers := do
  orRefuse format (Modifiers.ofSpelling? (← format.text v).toList)

def typeWith (format : Format ν m) (n : Nat) (superclassOf interfaceOf : ν → m ExternalType)
    (v : ν) : m ExternalType := do
  match ← format.record (n + 1) typeKeys v with
  | [some name, some kind, superclass, interfaces] =>
    let name ← format.text name
    let kind ← kindOf format n kind
    let superclass ← orElse none format.optional superclass
    let superclass ← superclass.mapM superclassOf
    let interfaces ← orElse [] (format.list n) interfaces
    let interfaces ← interfaces.mapM interfaceOf
    return ⟨name, kind, superclass, interfaces⟩
  | _ => format.refuse

/-- The list of interfaces is a step of its own, so that each of them is read two steps down. -/
def typeOf (format : Format ν m) : Nat → ν → m ExternalType
  | 0 => fun _ => format.refuse
  | 1 => typeWith format 0 (fun _ => format.refuse) (fun _ => format.refuse)
  | n + 2 => typeWith format (n + 1) (typeOf format (n + 1)) (typeOf format n)

theorem typeOf_succ (format : Format ν m) (n : Nat) :
    typeOf format (n + 1) = typeWith format n (typeOf format n) (typeOf format (n - 1)) := by
  cases n with
  | zero => rfl
  | succ n => rfl

def memberOf (format : Format ν m) : Nat → ν → m ExternalMember
  | 0, _ => format.refuse
  | n + 1, v => do
    match ← format.record (n + 1) memberKeys v with
    | [some declaring, some name, some kind, modifiers] =>
      let declaring ← typeOf format n declaring
      let name ← format.text name
      let kind ← memberKindOf format n kind
      let modifiers ← orElse .empty (modifiersOf format) modifiers
      return ⟨declaring, name, kind, modifiers⟩
    | _ => format.refuse

def ofNode (format : Format ν m) (n : Nat) (v : ν) : m Catalog := do
  match ← format.record n catalogKeys v with
  | [types, members] =>
    let types ← orElse [] (items format (typeOf format) (n - 1)) types
    let members ← orElse [] (items format (memberOf format) (n - 1)) members
    return ⟨types, members⟩
  | _ => format.refuse

end DeclForest.Catalog
