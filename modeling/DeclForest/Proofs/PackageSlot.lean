import DeclForest.Proofs.Frame

/-!
The slots that units have for their packages, and what each operation does to them. Almost all leave
them alone; which operation may fill a slot, with what, is said by `Operation.installs`.
-/

namespace DeclForest

def Operation.installs (f : Forest) : Operation → Option (DeclId × UnitId)
  | register id (.unit u) | addToUnit u id | setPackageDefinition u id => some (id, u)
  | setPackage u _ => some (⟨f.decls.size⟩, u)
  | _ => none

namespace Forest

open Edit

variable {f g : Forest} {id d : DeclId} {u : UnitId} {o : Owner} {x : Declaration}
  {kind : OwnerKind}

def packageSlot? (f : Forest) (u : UnitId) : Option DeclId :=
  (f.unit? u).bind CompilationUnit.package

theorem packageSlot?_newUnit (f : Forest) :
    packageSlot? { f with units := f.units.push .empty } = f.packageSlot? := by
  funext u
  have hc := (newUnit_sameViews f).collection u (.package "")
  have hslot : ∀ f : Forest, f.collection u (.package "") = (f.packageSlot? u).toList := by
    intro f
    unfold collection packageSlot?
    cases f.unit? u <;> rfl
  rw [hslot, hslot] at hc
  cases h : packageSlot? { f with units := f.units.push .empty } u <;>
    cases h' : f.packageSlot? u <;> simp_all

theorem Admissible.packageSlot?_attach (ha : f.Admissible id o x kind) :
    (f.attach id o).packageSlot? = f.packageSlot? ∨
      ∃ u name, o = .unit u ∧ x.content = .package name ∧
        ∀ v, (f.attach id o).packageSlot? v = if v = u then some id else f.packageSlot? v := by
  cases ho : o with
  | type t => exact .inl rfl
  | unit u =>
    obtain ⟨unit, hu, -⟩ := ha.exists_unit ho
    have hslot : ∀ v, (f.attach id o).packageSlot? v =
        if v = u then (unit.hold id x.content).package else f.packageSlot? v := by
      intro v
      unfold packageSlot?
      rw [ha.unit?_attach ho]
      by_cases hv : v = u <;> simp [hv, hu]
    rw [← ho]
    cases hc : x.content with
    | package name => exact .inr ⟨u, name, ho, rfl, fun v => by rw [hslot, hc]; rfl⟩
    | _ =>
      refine .inl (funext fun v => ?_)
      rw [hslot, hc]
      by_cases hv : v = u <;> simp [hv, CompilationUnit.hold, packageSlot?, hu]

/-- The slots are as they were, or one of them was filled with what had no owner. -/
def FillsAtMost (f : Forest) (place : Option (DeclId × UnitId)) (g : Forest) : Prop :=
  g.packageSlot? = f.packageSlot? ∨ ∃ d u, place = some (d, u) ∧ f.owner? d = none ∧
    ∀ v, g.packageSlot? v = if v = u then some d else f.packageSlot? v

theorem register_fillsAtMost (f : Forest) (id : DeclId) (u : UnitId) :
    f.FillsAtMost (some (id, u)) ((register id (.unit u)).run f).2 := by
  rcases f.run_register_eq_or id (.unit u) with he | ⟨x, kind, ha, he⟩
  · exact .inl (by rw [he])
  · rw [he]
    rcases ha.packageSlot?_attach with hsame | ⟨v, name, hv, -, hslots⟩
    · exact .inl hsame
    · obtain rfl := Owner.unit.inj hv
      exact .inr ⟨id, u, rfl, ha.owner?_eq_none, hslots⟩

/-- A package is the only thing that is put into a slot. -/
theorem overlooks_packageSlot? : Overlooks packageSlot? where
  declare _ _ := rfl
  member _ _ _ := rfl
  unit f id u x kind ha hx := by
    rcases ha.packageSlot?_attach with hsame | ⟨v, name, -, hname, -⟩
    · exact hsame
    · exact absurd hname (hx name)

theorem setPackageDefinition_fillsAtMost (f : Forest) (u : UnitId) (id : DeclId) :
    f.FillsAtMost (some (id, u)) ((setPackageDefinition u id).run f).2 := by
  unfold setPackageDefinition
  rw [run_inspect_bind]
  cases f.declaration id with
  | error fault => exact .inl rfl
  | ok x =>
    rcases x with ⟨c, o, k⟩
    cases c with
    | package name => exact f.register_fillsAtMost id u
    | _ => exact .inl rfl

theorem setPackage_fillsAtMost (f : Forest) (u : UnitId) (name : String) :
    f.FillsAtMost (some (⟨f.decls.size⟩, u)) ((setPackage u name).run f).2 := by
  unfold setPackage
  rw [run_inspect_bind]
  cases f.unit u with
  | error fault => exact .inl rfl
  | ok unit =>
    have hrun : Edit.run (do
        let id ← declare (.package name)
        setPackageDefinition u id
        return id) f = Edit.run (do
          setPackageDefinition u ⟨f.decls.size⟩
          return (⟨f.decls.size⟩ : DeclId)) (f.withNew (.package name)) :=
      run_bind_of_ok (run_declare (.package name) f)
    have hlast : (Edit.run (do
          setPackageDefinition u ⟨f.decls.size⟩
          return (⟨f.decls.size⟩ : DeclId)) (f.withNew (.package name))).2 =
        ((setPackageDefinition u ⟨f.decls.size⟩).run (f.withNew (.package name))).2 := by
      rw [run_bind]
      rcases (setPackageDefinition u ⟨f.decls.size⟩).run (f.withNew (.package name)) with ⟨r, g⟩
      cases r <;> rfl
    have hnone : f.owner? ⟨f.decls.size⟩ = none := by simp [owner?, get?_size]
    simp only [hrun, hlast]
    rcases setPackageDefinition_fillsAtMost (f.withNew (.package name)) u ⟨f.decls.size⟩ with
      hsame | ⟨d, v, hplace, -, hslots⟩
    · exact .inl hsame
    · obtain ⟨rfl, rfl⟩ := Prod.mk.inj (Option.some.inj hplace)
      exact .inr ⟨_, _, rfl, hnone, hslots⟩

/-- One operation fills one slot at most, with the declaration that it installs. -/
theorem perform_fillsAtMost (f : Forest) (op : Operation) :
    f.FillsAtMost (op.installs f) (op.perform f).2 := by
  cases op with
  | declare c => exact .inl rfl
  | newUnit => exact .inl (packageSlot?_newUnit f)
  | register id o =>
    cases o with
    | type t => exact .inl overlooks_packageSlot?.register_leaves
    | unit u => exact f.register_fillsAtMost id u
  | add type id => exact .inl overlooks_packageSlot?.add_leaves
  | addAll type ids => exact .inl overlooks_packageSlot?.addAll_leaves
  | addNew type c => exact .inl (overlooks_packageSlot?.addNew_leaves c)
  | addToUnit u id => exact f.register_fillsAtMost id u
  | setPackage u name => exact f.setPackage_fillsAtMost u name
  | setPackageDefinition u id => exact f.setPackageDefinition_fillsAtMost u id
  | importType u target => exact .inl overlooks_packageSlot?.importType_leaves
  | importTypes r u types => exact .inl (overlooks_packageSlot?.importTypes_leaves f r u types)
  | importStatic r u members => exact .inl (overlooks_packageSlot?.importStatic_leaves f r u members)
  | setModifiers id m => exact .inl (leaves_inspect_bind fun _ _ => rfl)
  | extend id super =>
    refine .inl (leaves_inspect_bind fun t _ => ?_)
    cases t.extending super <;> rfl
  | addSuperInterface id face =>
    have hleaves : (Forest.addSuperInterface id face).Leaves packageSlot? f :=
      leaves_inspect_bind fun _ _ => rfl
    exact .inl hleaves
  | setDoc id text => exact .inl (leaves_inspect_bind fun _ _ => rfl)
  | setBlock id text => exact .inl (leaves_inspect_bind fun _ _ => rfl)
  | addLine id text => exact .inl (leaves_inspect_bind fun _ _ => rfl)
  | definedType id =>
    have hleaves : (Forest.definedType id).Leaves packageSlot? f :=
      leaves_inspect_bind fun _ _ => rfl
    exact .inl hleaves
  | fork number => exact .inl rfl

end Forest

end DeclForest
