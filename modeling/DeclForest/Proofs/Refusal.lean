import DeclForest.Proofs.Invariant

/-!
Refused operations. A registration writes its two records only after a check, and in a forest that
obeys the invariant the writing cannot fail any more; a batch is checked as a whole before its first
registration; what an import or a package slot needs is declared only when nothing can refuse it.
So an operation that ends in a fault leaves the forest as it was, except that a member which was
declared in order to be added stays behind without an owner.
-/

namespace DeclForest

namespace Edit

variable {α β : Type}

/-- If the edit ends in a fault, then with the forest it began with. -/
def Spares (e : Edit α) (f : Forest) : Prop := ∀ fault g, e.run f = (.error fault, g) → g = f

theorem spares_of_ok {e : Edit α} {f g : Forest} {a : α} (h : e.run f = (.ok a, g)) :
    e.Spares f := by
  intro fault g' he
  rw [h] at he
  simp at he

theorem spares_throw (fault : Fault) (f : Forest) : Spares (throw fault : Edit α) f := by
  intro fault' g h
  exact (Prod.mk.inj h).2.symm

theorem spares_inspect_bind {look : Forest → Except Fault α} {next : α → Edit β} {f : Forest}
    (h : ∀ a, look f = .ok a → (next a).Spares f) : Spares (inspect look >>= next) f := by
  intro fault g he
  rw [run_inspect_bind] at he
  cases hl : look f with
  | error fault' =>
    rw [hl] at he
    exact (Prod.mk.inj he).2.symm
  | ok a =>
    rw [hl] at he
    exact h a hl fault g he

theorem spares_ofExcept_bind {x : Except Fault α} {next : α → Edit β} {f : Forest}
    (h : ∀ a, x = .ok a → (next a).Spares f) : Spares (ofExcept x >>= next) f :=
  @spares_inspect_bind α β (fun _ => x) next f h

theorem Spares.outcome {e : Edit α} {f g : Forest} {fault : Fault} (h : e.Spares f)
    (he : e.outcome f = (.error fault, g)) : g = f := by
  obtain ⟨hr, rfl⟩ := Prod.mk.inj he
  exact h fault _ (Prod.ext (map_eq_error.mp hr) rfl)

end Edit

namespace Content

def IsUnitLevel (c : Content) : Prop :=
  c.fits .unitOwner = true ∧ c.construct? (some .unitOwner) = none

theorem isUnitLevel_package (name : String) : (package name).IsUnitLevel := ⟨rfl, rfl⟩

theorem isUnitLevel_of_importing {target : Descriptor} {c : Content}
    (h : importing target = .ok c) : c.IsUnitLevel := by
  unfold importing at h
  split at h
  · simp at h
  · obtain rfl := Except.ok.inj h
    exact ⟨rfl, rfl⟩

theorem isUnitLevel_of_importingStatic {target : Descriptor} {member : String} {c : Content}
    (h : importingStatic target member = .ok c) : c.IsUnitLevel := by
  unfold importingStatic at h
  split at h
  · simp at h
  · obtain rfl := Except.ok.inj h
    exact ⟨rfl, rfl⟩

theorem IsUnitLevel.fresh {c : Content} (h : c.IsUnitLevel) : c.fresh.IsUnitLevel := by
  cases c <;> exact h

end Content

namespace Forest

open Edit

theorem coversUnits_isUnitLevel : CoversUnits Content.IsUnitLevel where
  package := Content.isUnitLevel_package
  importing _ _ := Content.isUnitLevel_of_importing
  importingStatic _ _ _ := Content.isUnitLevel_of_importingStatic

variable {f g : Forest} {id : DeclId} {o : Owner} {u : UnitId}

def withNew (f : Forest) (c : Content) : Forest :=
  { f with decls := f.decls.push ⟨c.fresh, none, .none⟩ }

theorem get?_withNew_self (f : Forest) (c : Content) :
    (f.withNew c).get? ⟨f.decls.size⟩ = some ⟨c.fresh, none, .none⟩ := by
  simp [withNew, get?_push]

/-- A unit takes what was just declared for it. -/
theorem admissible_new {c : Content} (hc : c.IsUnitLevel) {unit : CompilationUnit}
    (hu : f.unit? u = some unit) :
    (f.withNew c).Admissible ⟨f.decls.size⟩ (.unit u) ⟨c.fresh, none, .none⟩ .unitOwner where
  found := f.get?_withNew_self c
  ownerKind := ownerKind_unit_eq_ok_iff.mpr ⟨⟨unit, hu⟩, rfl⟩
  detached := rfl
  fits := hc.fresh.1
  outside := rfl
  legal construct hk := by simp [hc.fresh.2] at hk

namespace Invariant

variable (hf : f.Invariant)

include hf

theorem withNew (c : Content) : (f.withNew c).Invariant :=
  (declare_sameViews f c .none).invariant hf

theorem isSome_of_replaced {x : Declaration} {kind : OwnerKind} (h : f.Admissible id o x kind)
    {previous : DeclId} (hr : f.replaced? id o = some previous) : (f.get? previous).isSome := by
  obtain ⟨y, hy, -⟩ := exists_get?_of_owner? (hf.owner?_of_replaced h hr)
  simp [hy]

/-- After its check a commit cannot fail: the package it detaches is owned, and so it is there. -/
theorem run_commit (h : f.checkRegistration id o = .ok .pending) :
    (commit id o).run f = (.ok (), f.attach id o) := by
  obtain ⟨x, kind, ha⟩ := checkRegistration_eq_pending_iff.mp h
  rw [ha.run_commit]
  cases hr : f.replaced? id o with
  | none => rfl
  | some previous =>
    obtain ⟨y, hy⟩ := Option.isSome_iff_exists.mp (hf.isSome_of_replaced ha hr)
    simp [declaration_eq_ok_iff.mpr hy, Except.map]

theorem run_register (h : f.checkRegistration id o = .ok .pending) :
    (register id o).run f = (.ok (), f.attach id o) := by
  unfold register
  rw [run_inspect_bind_of_ok h]
  exact hf.run_commit h

theorem register_spares (id : DeclId) (o : Owner) : (register id o).Spares f := by
  apply spares_inspect_bind
  intro verdict h
  cases verdict with
  | alreadyThere => exact spares_of_ok (run_pure () f)
  | pending => exact spares_of_ok (hf.run_commit h)

theorem add_spares (type id : DeclId) : (add type id).Spares f :=
  spares_inspect_bind fun _ _ => hf.register_spares id (.type type)

theorem setPackageDefinition_spares (u : UnitId) (id : DeclId) :
    (setPackageDefinition u id).Spares f := by
  apply spares_inspect_bind
  intro x _
  cases x.content with
  | package name => exact hf.register_spares id (.unit u)
  | _ =>
    intro fault g he
    rw [run_get_bind] at he
    exact spares_throw _ f fault g he

theorem run_register_new {c : Content} (hc : c.IsUnitLevel) {unit : CompilationUnit}
    (hu : f.unit? u = some unit) :
    (register ⟨f.decls.size⟩ (.unit u)).run (f.withNew c) =
      (.ok (), (f.withNew c).attach ⟨f.decls.size⟩ (.unit u)) :=
  (hf.withNew c).run_register
    (checkRegistration_eq_pending_iff.mpr ⟨_, _, admissible_new hc hu⟩)

theorem setPackage_spares (u : UnitId) (name : String) : (setPackage u name).Spares f := by
  apply spares_inspect_bind
  intro unit hu
  have hx := declaration_eq_ok_iff.mpr (f.get?_withNew_self (.package name))
  have hset : (setPackageDefinition u ⟨f.decls.size⟩).run (f.withNew (.package name)) =
      (.ok (), (f.withNew (.package name)).attach ⟨f.decls.size⟩ (.unit u)) := by
    unfold setPackageDefinition
    rw [run_inspect_bind_of_ok hx]
    exact hf.run_register_new (Content.isUnitLevel_package name) (unit_eq_ok_iff.mp hu)
  exact spares_of_ok ((run_bind_of_ok (run_declare (.package name) f)).trans (run_bind_of_ok hset))

theorem exists_run_importOnce {c : Content} (hc : c.IsUnitLevel) {unit : CompilationUnit}
    (hu : f.unit? u = some unit) : ∃ id g, (importOnce u c).run f = (.ok id, g) := by
  have hfind : ∃ found, f.findImport u c = .ok found := by
    unfold findImport
    rw [unit_eq_ok_iff.mpr hu]
    exact ⟨_, rfl⟩
  obtain ⟨found, hfound⟩ := hfind
  unfold importOnce
  rw [run_inspect_bind_of_ok hfound]
  cases found with
  | some id => exact ⟨id, f, rfl⟩
  | none =>
    have hadd : (addToUnit u ⟨f.decls.size⟩).run (f.withNew c) =
        (.ok (), (f.withNew c).attach ⟨f.decls.size⟩ (.unit u)) := hf.run_register_new hc hu
    exact ⟨_, _, (run_bind_of_ok (run_declare c f)).trans (run_bind_of_ok hadd)⟩

theorem importType_spares (u : UnitId) (target : Descriptor) : (importType u target).Spares f := by
  apply spares_inspect_bind
  intro unit hu
  apply spares_ofExcept_bind
  intro c hc
  obtain ⟨id, g, hrun⟩ :=
    hf.exists_run_importOnce (Content.isUnitLevel_of_importing hc) (unit_eq_ok_iff.mp hu)
  exact spares_of_ok hrun

end Invariant

theorem Change.isSome_unit? {P : Content → Prop} (h : Change P f g)
    (hu : (f.unit? u).isSome) : (g.unit? u).isSome := by
  cases h with
  | newUnit =>
    unfold unit? at hu ⊢
    rw [Array.getElem?_push]
    split
    · rfl
    · exact hu
  | @attach id o hc =>
    obtain ⟨x, kind, ha⟩ := checkRegistration_eq_pending_iff.mp hc
    cases o with
    | type t => exact hu
    | unit v =>
      rw [ha.unit?_attach rfl]
      split <;> simp [hu]
  | _ => exact hu

/-- A batch of imports cannot fail: each of them leaves the unit in place for the next. -/
theorem Invariant.exists_run_mapM_importOnce (hf : f.Invariant) (hu : (f.unit? u).isSome)
    {contents : List Content} (hc : ∀ c ∈ contents, c.IsUnitLevel) :
    ∃ ids g, (contents.mapM (importOnce u)).run f = (.ok ids, g) := by
  induction contents generalizing f with
  | nil => exact ⟨[], f, rfl⟩
  | cons c contents ih =>
    obtain ⟨unit, hunit⟩ := Option.isSome_iff_exists.mp hu
    obtain ⟨id, g, hrun⟩ := hf.exists_run_importOnce (hc c List.mem_cons_self) hunit
    have hchanges : Changes (fun _ => True) f g := by
      simpa [hrun] using makes_importOnce u (c := c) trivial f
    have hg : g.Invariant := Changes.keep Change.invariant hchanges hf
    have hgu : (g.unit? u).isSome :=
      Changes.keep (I := fun f => (f.unit? u).isSome) Change.isSome_unit? hchanges hu
    obtain ⟨ids, g', hrest⟩ := ih hg hgu fun x hx => hc x (List.mem_cons_of_mem c hx)
    rw [List.mapM_cons]
    exact ⟨id :: ids, g', (run_bind_of_ok hrun).trans (run_bind_of_ok hrest)⟩

theorem Invariant.importCollected_spares (hf : f.Invariant) (hu : (f.unit? u).isSome)
    {collected : Except Fault (List Content) × Registry}
    (hc : ∀ contents, collected.1 = .ok contents → ∀ c ∈ contents, c.IsUnitLevel)
    {fault : Fault} (h : (f.importCollected u collected).1 = .error fault) :
    (f.importCollected u collected).2.1 = f := by
  rcases collected with ⟨result, r⟩
  cases result with
  | error _ => rfl
  | ok contents =>
    obtain ⟨ids, g, hrun⟩ := hf.exists_run_mapM_importOnce hu (hc contents rfl)
    simp [importCollected, hrun] at h

theorem Invariant.importTypes_spares (hf : f.Invariant) (r : Registry) (u : UnitId)
    (types : List ExternalType) {fault : Fault} (h : (f.importTypes r u types).1 = .error fault) :
    (f.importTypes r u types).2.1 = f := by
  unfold importTypes at h ⊢
  cases hu : f.unit u with
  | error _ => rfl
  | ok unit =>
    rw [hu] at h
    have hunit : (f.unit? u).isSome := by simp [unit_eq_ok_iff.mp hu]
    exact hf.importCollected_spares hunit (fun _ hok => coversUnits_isUnitLevel.of_types hok) h

theorem Invariant.importStatic_spares (hf : f.Invariant) (r : Registry) (u : UnitId)
    (members : List ExternalMember) {fault : Fault}
    (h : (f.importStatic r u members).1 = .error fault) :
    (f.importStatic r u members).2.1 = f := by
  unfold importStatic at h ⊢
  cases hu : f.unit u with
  | error _ => rfl
  | ok unit =>
    rw [hu] at h
    cases hm : members.find? fun m => !m.isStatic with
    | some m => rfl
    | none =>
      simp only [hm] at h
      have hunit : (f.unit? u).isSome := by simp [unit_eq_ok_iff.mp hu]
      exact hf.importCollected_spares hunit (fun _ hok => coversUnits_isUnitLevel.of_members hok) h

theorem addAll_spares (f : Forest) (type : DeclId) (ids : List DeclId) :
    (addAll type ids).Spares f :=
  spares_inspect_bind fun _ _ => spares_inspect_bind fun _ h =>
    spares_of_ok (pending_batch h).run_commit

theorem comment_spares (f : Forest) (id : DeclId) (change : Comments → Comments) :
    (comment id change).Spares f :=
  spares_inspect_bind fun _ _ => spares_of_ok (run_change _ f)

theorem setModifiers_spares (f : Forest) (id : DeclId) (m : Modifiers) :
    (setModifiers id m).Spares f :=
  spares_inspect_bind fun _ _ => spares_of_ok (run_change _ f)

theorem extend_spares (f : Forest) (id : DeclId) (super : Descriptor) :
    (extend id super).Spares f :=
  spares_inspect_bind fun _ _ => spares_ofExcept_bind fun _ _ => spares_of_ok (run_change _ f)

theorem addSuperInterface_spares (f : Forest) (id : DeclId) (face : Descriptor) :
    (addSuperInterface id face).Spares f :=
  spares_inspect_bind fun _ _ => spares_of_ok (run_change_bind _ _ f)

theorem definedType_spares (f : Forest) (id : DeclId) : (definedType id).Spares f :=
  spares_inspect_bind fun _ _ => spares_of_ok ((run_get_bind _ f).trans (run_change_bind _ _ f))

/-- What a refused operation leaves behind: a declaration that was made to become a member stays. -/
def leftBy (f : Forest) : Operation → Forest
  | .addNew _ c => f.withNew c
  | _ => f

theorem Invariant.addNew_leaves (hf : f.Invariant) (type : DeclId) (c : Content) {fault : Fault}
    (h : (addNew type c).run f = (.error fault, g)) : g = f.withNew c := by
  have hadd := (hf.withNew c).add_spares type ⟨f.decls.size⟩
  have hrun : (addNew type c).run f = Edit.run (do
      add type ⟨f.decls.size⟩
      return ⟨f.decls.size⟩) (f.withNew c) := run_bind_of_ok (run_declare c f)
  rw [hrun, run_bind] at h
  rcases hr : (add type ⟨f.decls.size⟩).run (f.withNew c) with ⟨result, g'⟩
  rw [hr] at h
  cases result with
  | error fault' =>
    obtain ⟨-, rfl⟩ := Prod.mk.inj h
    exact hadd fault' g' hr
  | ok _ => simp at h

/-- A refusal leaves nothing half done, and no registration is refused after its check. -/
structure RefusesWhole (f : Forest) : Prop where
  refused : ∀ op fault g, op.perform f = (.error fault, g) → g = f.leftBy op
  committed : ∀ id o, f.checkRegistration id o = .ok .pending →
    (commit id o).run f = (.ok (), f.attach id o)

theorem Invariant.eq_leftBy (hf : f.Invariant) (op : Operation) {fault : Fault}
    (h : op.perform f = (.error fault, g)) : g = f.leftBy op := by
  cases op with
  | declare c => exact (spares_of_ok (run_declare c f)).outcome h
  | newUnit =>
    have hrun : newUnit.run f = (.ok ⟨f.units.size⟩, { f with units := f.units.push .empty }) := rfl
    exact (spares_of_ok hrun).outcome h
  | register id o => exact (hf.register_spares id o).outcome h
  | add type id => exact (hf.add_spares type id).outcome h
  | addAll type ids => exact (f.addAll_spares type ids).outcome h
  | addNew type c =>
    obtain ⟨hr, rfl⟩ := Prod.mk.inj h
    exact hf.addNew_leaves type c (Prod.ext (map_eq_error.mp hr) rfl)
  | addToUnit u id => exact (hf.register_spares id (.unit u)).outcome h
  | setPackage u name => exact (hf.setPackage_spares u name).outcome h
  | setPackageDefinition u id => exact (hf.setPackageDefinition_spares u id).outcome h
  | importType u target => exact (hf.importType_spares u target).outcome h
  | importTypes r u types =>
    obtain ⟨hr, rfl⟩ := Prod.mk.inj h
    exact hf.importTypes_spares r u types (map_eq_error.mp hr)
  | importStatic r u members =>
    obtain ⟨hr, rfl⟩ := Prod.mk.inj h
    exact hf.importStatic_spares r u members (map_eq_error.mp hr)
  | setModifiers id m => exact (f.setModifiers_spares id m).outcome h
  | extend id super => exact (f.extend_spares id super).outcome h
  | addSuperInterface id face => exact (f.addSuperInterface_spares id face).outcome h
  | setDoc id text => exact (f.comment_spares id _).outcome h
  | setBlock id text => exact (f.comment_spares id _).outcome h
  | addLine id text => exact (f.comment_spares id _).outcome h
  | definedType id => exact (f.definedType_spares id).outcome h
  | fork number => simp [Operation.perform] at h

theorem reachable_refusesWhole (h : f.Reachable) : f.RefusesWhole := by
  have hf := reachable_invariant h
  constructor
  · intro op fault g hop
    exact hf.eq_leftBy op hop
  · intro id o hc
    exact hf.run_commit hc

/-- In the sample the class of the unit cannot become a member as well, a field takes no member but
leaves the new declaration behind, and the package that was driven out may come back. -/
theorem sample_refusesWhole : sample.Reachable ∧ sample.RefusesWhole ∧
    (Operation.register ⟨2⟩ (.type ⟨3⟩)).perform sample =
      (.error (.ownershipConflict "class `C`" "unit #0" "class `D`"), sample) ∧
    ((Operation.addNew ⟨4⟩ (.type (.ofName .classKind "E"))).perform sample).2 =
      sample.withNew (.type (.ofName .classKind "E")) ∧
    sample.checkRegistration ⟨0⟩ (.unit ⟨0⟩) = .ok .pending :=
  ⟨sample_reachable, reachable_refusesWhole sample_reachable, by decide +kernel,
    by decide +kernel, by decide +kernel⟩

end Forest

end DeclForest
