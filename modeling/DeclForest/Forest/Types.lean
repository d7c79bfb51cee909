import DeclForest.Forest.Registration

/-!
Types and their members. Members are registered one by one or as a batch that is checked as a whole
first; each view lists the members of one kind in the order of registration.
-/

namespace DeclForest.Forest

def addSuperInterface (id : DeclId) (face : Descriptor) : Edit Bool := do
  let t ← Edit.inspect (·.typeDefinition id)
  Edit.change (·.updateType id (·.implementing face))
  return !t.lists face

def extend (id : DeclId) (super : Descriptor) : Edit Unit := do
  let t ← Edit.inspect (·.typeDefinition id)
  let extended ← ofExcept (t.extending super)
  Edit.change (·.updateType id fun _ => extended)

def add (type id : DeclId) : Edit Unit := do
  let _ ← Edit.inspect (·.typeDefinition type)
  register id (.type type)

def pending (f : Forest) (o : Owner) (ids : List DeclId) : Except Fault (List DeclId) :=
  ids.foldlM (fun found id => do
    let verdict ← f.checkRegistration id o
    return if verdict = .pending ∧ id ∉ found then found ++ [id] else found) []

def addAll (type : DeclId) (ids : List DeclId) : Edit Unit := do
  let _ ← Edit.inspect (·.typeDefinition type)
  let found ← Edit.inspect (·.pending (.type type) ids)
  found.forM fun id => commit id (.type type)

def addNew (type : DeclId) (c : Content) : Edit DeclId := do
  let id ← declare c
  add type id
  return id

def membersOf (f : Forest) (type : DeclId) : List (DeclId × Content) :=
  (((f.type? type).map TypeDefinition.members).getD []).filterMap fun id =>
    (f.get? id).map fun d => (id, d.content)

def fields (f : Forest) (type : DeclId) : List DeclId :=
  (f.membersOf type).filterMap fun
    | (id, .field _) => some id
    | _ => none

def methods (f : Forest) (type : DeclId) : List DeclId :=
  (f.membersOf type).filterMap fun
    | (id, .method _) => some id
    | _ => none

def constructors (f : Forest) (type : DeclId) : List DeclId :=
  (f.membersOf type).filterMap fun
    | (id, .constructor _) => some id
    | _ => none

def initializers (f : Forest) (type : DeclId) : List (DeclId × Bool) :=
  (f.membersOf type).filterMap fun
    | (id, .initializer _) => some (id, false)
    | (id, .staticInitializer _) => some (id, true)
    | _ => none

def nested (f : Forest) (type : DeclId) (kind : TypeKind) : List DeclId :=
  (f.membersOf type).filterMap fun
    | (id, .type t) => if t.kind = kind then some id else none
    | _ => none

def definedType (id : DeclId) : Edit Descriptor := do
  let t ← Edit.inspect (·.typeDefinition id)
  let issuer := t.issuer.getD (← get).number
  Edit.change (·.updateType id fun t => { t with issuer := some issuer })
  return ⟨issuer, .defined id t.name t.kind⟩

end DeclForest.Forest
