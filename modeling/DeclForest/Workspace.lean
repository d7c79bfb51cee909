import DeclForest.Forest.Types
import DeclForest.Forest.Unit

/-!
Work on several forests with several registries. Forests and registries are numbered from zero;
the superclasses found so far are shared by all registries. A step names the forest and the registry
it is about, and keeps what it did before a fault.
-/

namespace DeclForest

structure Workspace where
  forests : Array Forest
  registries : Array Registry
  superclasses : SuperclassMemo

inductive TypeChoice where
  | primitive (p : Primitive)
  | wrapped (position : Position) (t : ExternalType)
  | defined (id : DeclId)
  /-- The descriptor that the registry has for the chosen one. -/
  | rewrapped (choice : TypeChoice)
  | given (d : Descriptor)

abbrev Work := ExceptT Fault (StateM Workspace)

namespace Workspace

def initial : Workspace := ⟨#[.empty 0], #[.empty 0], .empty⟩

/-- A forest that was never made is empty. -/
def forest (w : Workspace) (n : Nat) : Forest := w.forests[n]?.getD (.empty n)

def registry (w : Workspace) (n : Nat) : Registry := w.registries[n]?.getD (.empty n)

def setForest (w : Workspace) (n : Nat) (f : Forest) : Workspace :=
  { w with forests := w.forests.setIfInBounds n f }

def setRegistry (w : Workspace) (n : Nat) (r : Registry) : Workspace :=
  { w with registries := w.registries.setIfInBounds n r }

end Workspace

namespace Work

def run {α : Type} (work : Work α) (w : Workspace) : Except Fault α × Workspace :=
  (ExceptT.run work).run w

def newForest : Work Nat := do
  let w ← get
  set { w with forests := w.forests.push (.empty w.forests.size) }
  return w.forests.size

def fork (n : Nat) : Work Nat := do
  let w ← get
  set { w with forests := w.forests.push ((w.forest n).fork w.forests.size) }
  return w.forests.size

def newRegistry : Work Nat := do
  let w ← get
  set { w with registries := w.registries.push (.empty w.registries.size) }
  return w.registries.size

def edit {α : Type} (n : Nat) (e : Edit α) : Work α := do
  let w ← get
  let (result, f) := e.run (w.forest n)
  set (w.setForest n f)
  ofExcept result

def ask {α : Type} (n : Nat) (question : Forest → Except Fault α) : Work α := do
  ofExcept (question ((← get).forest n))

/-- A call of a registry that may change it even where it fails. -/
def consult {α : Type} (n : Nat) (call : Registry → Except Fault α × Registry) : Work α := do
  let w ← get
  let (result, r) := call (w.registry n)
  set (w.setRegistry n r)
  ofExcept result

def resolve (forest registry : Nat) : TypeChoice → Work Descriptor
  | .primitive p => consult registry fun r => (r.primitive p).map .ok id
  | .wrapped position t => consult registry fun r =>
      match r.wrap position t with
      | .ok (d, r) => (.ok d, r)
      | .error fault => (.error fault, r)
  | .defined id => edit forest (Forest.definedType id)
  | .rewrapped choice => do
      let d ← resolve forest registry choice
      consult registry fun r => (r.rewrap d).map .ok id
  | .given d => return d

def superclassOf (registry : Nat) (d : Descriptor) : Work (Option Descriptor) := do
  let w ← get
  match (w.registry registry).superclassOf w.superclasses d with
  | .error fault => throw fault
  | .ok (answer, r, memo) =>
    set { w.setRegistry registry r with superclasses := memo }
    return answer

def interfacesOf (registry : Nat) (d : Descriptor) : Work (List Descriptor) :=
  consult registry fun r => r.interfacesOf d

def batch {α : Type} (forest registry : Nat)
    (call : Forest → Registry → Except Fault α × Forest × Registry) : Work α := do
  let w ← get
  let (result, f, r) := call (w.forest forest) (w.registry registry)
  set ((w.setForest forest f).setRegistry registry r)
  ofExcept result

def importTypes (forest registry : Nat) (u : UnitId) (types : List ExternalType) :
    Work (List DeclId) :=
  batch forest registry fun f r => f.importTypes r u types

def importStatic (forest registry : Nat) (u : UnitId) (members : List ExternalMember) :
    Work (List DeclId) :=
  batch forest registry fun f r => f.importStatic r u members

def copy (source : Nat) (id : DeclId) (target : Nat) : Work DeclId := do
  let d ← ask source (·.declaration id)
  edit target (Forest.declare d.content)

section Runs

variable {α : Type}

@[simp] theorem run_ofExcept (x : Except Fault α) (w : Workspace) :
    Work.run (ofExcept x) w = (x, w) := by
  cases x <;> rfl

@[simp] theorem run_edit (n : Nat) (e : Edit α) (w : Workspace) :
    (edit n e).run w = ((e.run (w.forest n)).1, w.setForest n (e.run (w.forest n)).2) :=
  run_ofExcept _ _

@[simp] theorem run_consult (n : Nat) (call : Registry → Except Fault α × Registry)
    (w : Workspace) : (consult n call).run w =
      ((call (w.registry n)).1, w.setRegistry n (call (w.registry n)).2) :=
  run_ofExcept _ _

@[simp] theorem run_batch (forest registry : Nat)
    (call : Forest → Registry → Except Fault α × Forest × Registry) (w : Workspace) :
    (batch forest registry call).run w =
      let done := call (w.forest forest) (w.registry registry)
      (done.1, (w.setForest forest done.2.1).setRegistry registry done.2.2) :=
  run_ofExcept _ _

theorem run_superclassOf (registry : Nat) (d : Descriptor) (w : Workspace) :
    (superclassOf registry d).run w =
      match (w.registry registry).superclassOf w.superclasses d with
      | .error fault => (.error fault, w)
      | .ok (answer, r, memo) =>
        (.ok answer, { w.setRegistry registry r with superclasses := memo }) := by
  show Work.run (match (w.registry registry).superclassOf w.superclasses d with
    | .error fault => throw fault
    | .ok (answer, r, memo) => do
      set { w.setRegistry registry r with superclasses := memo }
      return answer) w = _
  rcases (w.registry registry).superclassOf w.superclasses d with fault | ⟨answer, r, memo⟩ <;> rfl

end Runs

end Work

end DeclForest
