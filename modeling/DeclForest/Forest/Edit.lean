import DeclForest.Forest.Basic

/-!
Edits of a forest. An edit ends in a value or a fault, and in a forest either way, because what an
edit did before it failed is not undone.
-/

namespace DeclForest

abbrev Edit := ExceptT Fault (StateM Forest)

namespace Edit

def run {α : Type} (e : Edit α) (f : Forest) : Except Fault α × Forest := (ExceptT.run e).run f

def inspect {α : Type} (look : Forest → Except Fault α) : Edit α := do
  ofExcept (look (← get))

def change (step : Forest → Forest) : Edit Unit := modify step

variable {α β : Type}

@[simp] theorem run_pure (a : α) (f : Forest) : Edit.run (pure a) f = (.ok a, f) := rfl

/-- What follows a fault is not run. -/
theorem run_bind (e : Edit α) (next : α → Edit β) (f : Forest) :
    Edit.run (e >>= next) f =
      match e.run f with
      | (.ok a, f) => (next a).run f
      | (.error fault, f) => (.error fault, f) := by
  show ((ExceptT.bind e next).run).run f = _
  simp only [ExceptT.bind, ExceptT.mk, ExceptT.run, StateT.run_bind, Edit.run]
  rcases h : StateT.run e f with ⟨r, g⟩
  cases r <;> simp [ExceptT.bindCont] <;> rfl

@[simp] theorem run_ofExcept (x : Except Fault α) (f : Forest) :
    Edit.run (ofExcept x) f = (x, f) := by
  cases x <;> rfl

@[simp] theorem run_inspect (look : Forest → Except Fault α) (f : Forest) :
    (inspect look).run f = (look f, f) := run_ofExcept (look f) f

@[simp] theorem run_change (step : Forest → Forest) (f : Forest) :
    (change step).run f = (.ok (), step f) := rfl

theorem run_bind_of_ok {e : Edit α} {next : α → Edit β} {f g : Forest} {a : α}
    (h : e.run f = (.ok a, g)) : Edit.run (e >>= next) f = (next a).run g := by
  rw [run_bind, h]

theorem run_inspect_bind (look : Forest → Except Fault α) (next : α → Edit β) (f : Forest) :
    Edit.run (inspect look >>= next) f =
      match look f with
      | .ok a => (next a).run f
      | .error fault => (.error fault, f) := by
  rw [run_bind, run_inspect]
  cases look f <;> rfl

theorem run_inspect_bind_of_ok {look : Forest → Except Fault α} {next : α → Edit β} {f : Forest}
    {a : α} (h : look f = .ok a) : Edit.run (inspect look >>= next) f = (next a).run f := by
  rw [run_inspect_bind, h]

@[simp] theorem run_change_bind (step : Forest → Forest) (next : Unit → Edit β) (f : Forest) :
    Edit.run (change step >>= next) f = (next ()).run (step f) := run_bind_of_ok rfl

@[simp] theorem run_get_bind (next : Forest → Edit β) (f : Forest) :
    Edit.run (get >>= next) f = (next f).run f := run_bind_of_ok rfl

end Edit

namespace Forest

def declare (c : Content) : Edit DeclId := do
  let f ← get
  set { f with decls := f.decls.push ⟨c.fresh, none, .none⟩ }
  return ⟨f.decls.size⟩

@[simp] theorem run_declare (c : Content) (f : Forest) :
    (declare c).run f =
      (.ok ⟨f.decls.size⟩, { f with decls := f.decls.push ⟨c.fresh, none, .none⟩ }) := rfl

def newUnit : Edit UnitId := do
  let f ← get
  set { f with units := f.units.push .empty }
  return ⟨f.units.size⟩

def comment (id : DeclId) (change : Comments → Comments) : Edit Unit := do
  let _ ← Edit.inspect (·.declaration id)
  Edit.change (·.updateDecl id fun d => { d with comments := change d.comments })

def setDoc (id : DeclId) (text : String) : Edit Unit :=
  comment id fun c => { c with doc := some text }

def setBlock (id : DeclId) (text : String) : Edit Unit :=
  comment id fun c => { c with block := some text }

def addLine (id : DeclId) (text : String) : Edit Unit :=
  comment id fun c => { c with lines := c.lines ++ [text] }

end Forest

end DeclForest
