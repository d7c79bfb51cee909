import DeclForest.Descriptor

/-!
Registries hand out one descriptor per type. `Registry.adopt` keeps the first descriptor of each key
and gives it out from then on. A reference is checked against the position that wants it, then
looked up, and only where it is not known yet does its kind say what it stands for.
-/

namespace DeclForest

inductive Position where
  | anyType | plainClass | interfaceLike
  deriving DecidableEq, Repr

namespace Position

def admits : Position → ExternalKind → Bool
  | anyType, _ => true
  | plainClass, kind => kind = .classType
  | interfaceLike, kind => kind.isInterfaceLike

def expected : Position → String
  | anyType => "a type"
  | plainClass => "a class"
  | interfaceLike => "an interface"

/-- A reference of a kind other than primitive may not be named like a primitive. -/
def check (position : Position) (t : ExternalType) : Except Fault Unit :=
  if !position.admits t.kind then .error (.invalidClass t.sourceName position.expected)
  else if t.kind ≠ .primitiveType ∧ (Primitive.ofKeyword? t.qualifiedName).isSome then
    .error (.invalidClass t.qualifiedName "a reference type")
  else .ok ()

end Position

def ExternalType.referent (t : ExternalType) : Except Fault Referent :=
  match t.kind with
  | .primitiveType =>
    match Primitive.ofKeyword? t.qualifiedName with
    | some p => .ok (.primitive p)
    | none => .error (.invalidClass t.qualifiedName "a primitive type")
  | _ => .ok (.external t)

structure Registry where
  number : Nat
  entries : List Descriptor
  deriving DecidableEq, Repr

namespace Registry

def empty (number : Nat) : Registry := ⟨number, []⟩

def find? (r : Registry) (key : TypeKey) : Option Descriptor :=
  r.entries.find? fun d => d.key == key

def size (r : Registry) : Nat := r.entries.length

def contains (r : Registry) (name : String) : Bool :=
  r.entries.any fun d => (d.external?.map ExternalType.qualifiedName) == some name

/-- The descriptor of the same key that is known already, or else this one from now on. -/
def adopt (r : Registry) (d : Descriptor) : Descriptor × Registry :=
  match r.find? d.key with
  | some known => (known, r)
  | none => (d, { r with entries := r.entries ++ [d] })

theorem key_of_find? {r : Registry} {key : TypeKey} {d : Descriptor} (h : r.find? key = some d) :
    d.key = key := by
  simpa using List.find?_some h

theorem find?_adopt (r : Registry) (d : Descriptor) (key : TypeKey) :
    (r.adopt d).2.find? key = (r.find? key).or (if d.key = key then some d else none) := by
  unfold adopt
  cases h : r.find? d.key with
  | some known =>
    by_cases hk : d.key = key
    · simp [← hk, h]
    · simp [hk]
  | none => simp [find?, List.find?_append, List.find?_cons]; split <;> simp_all

/-- What is handed out is what a look-up finds from then on. -/
theorem find?_adopt_self (r : Registry) (d : Descriptor) :
    (r.adopt d).2.find? d.key = some (r.adopt d).1 := by
  rw [find?_adopt]
  unfold adopt
  cases h : r.find? d.key <;> simp

def intern (r : Registry) (x : Referent) : Descriptor × Registry := r.adopt ⟨r.number, x⟩

def primitive (r : Registry) (p : Primitive) : Descriptor × Registry := r.intern (.primitive p)

def wrap (r : Registry) (position : Position) (t : ExternalType) :
    Except Fault (Descriptor × Registry) := do
  position.check t
  match r.find? (.external t.qualifiedName t.kind) with
  | some known => return (known, r)
  | none => return r.intern (← t.referent)

def rewrap (r : Registry) (d : Descriptor) : Descriptor × Registry :=
  match d.referent with
  | .primitive p => r.primitive p
  | .external _ => r.adopt d
  | .defined .. => (d, r)

def collect {α β : Type} (r : Registry) (position : Position) (type : α → ExternalType)
    (use : α → Descriptor → Except Fault β) : List α → Except Fault (List β) × Registry
  | [] => (.ok [], r)
  | item :: rest =>
    match r.wrap position (type item) with
    | .error fault => (.error fault, r)
    | .ok (d, r) =>
      match use item d with
      | .error fault => (.error fault, r)
      | .ok used =>
        let (results, r) := r.collect position type use rest
        (results.map (used :: ·), r)

def wrapEach (r : Registry) (position : Position) (types : List ExternalType) :
    Except Fault (List Descriptor) × Registry :=
  r.collect position id (fun _ d => .ok d) types

def interfacesOf (r : Registry) (d : Descriptor) : Except Fault (List Descriptor) × Registry :=
  r.wrapEach .interfaceLike ((d.external?.map ExternalType.interfaces).getD [])

end Registry

/-! ## Superclasses

The superclass of an external class is computed on first demand. The answer belongs to the
descriptor and not to the registry that was asked, so later questions to any registry get the same
one. A refusal is not kept. -/

structure SuperclassMemo where
  answers : List (Identity × Option Descriptor)
  deriving DecidableEq, Repr

namespace SuperclassMemo

def empty : SuperclassMemo := ⟨[]⟩

def find? (memo : SuperclassMemo) (d : Descriptor) : Option (Option Descriptor) :=
  (memo.answers.find? fun answer => answer.1 == d.identity).map Prod.snd

def record (memo : SuperclassMemo) (d : Descriptor) (answer : Option Descriptor) :
    SuperclassMemo :=
  ⟨memo.answers ++ [(d.identity, answer)]⟩

end SuperclassMemo

def Descriptor.externalClass? (d : Descriptor) : Option ExternalType :=
  d.external?.filter fun t => !t.kind.isInterfaceLike

/-- The superclass of a descriptor; only external classes and enums have an answer to keep. -/
def Registry.superclassOf (r : Registry) (memo : SuperclassMemo) (d : Descriptor) :
    Except Fault (Option Descriptor × Registry × SuperclassMemo) :=
  match d.externalClass? with
  | none => .ok (none, r, memo)
  | some t =>
    match memo.find? d with
    | some answer => .ok (answer, r, memo)
    | none =>
      match t.superclass with
      | none => .ok (none, r, memo.record d none)
      | some super =>
        (r.wrap .plainClass super).map fun (s, r) => (some s, r, memo.record d (some s))

end DeclForest
