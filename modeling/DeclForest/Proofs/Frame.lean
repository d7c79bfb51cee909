import DeclForest.Proofs.Outcome

/-!
What an edit leaves alone. A view of forests that shows neither new declarations nor members, and of
what units take in only packages, is changed by no registration of members and by no import; one that
shows nothing of what is written to declarations and units is changed by no operation that writes.
-/

namespace DeclForest

namespace Edit

variable {α β γ : Type} {view : Forest → γ} {f : Forest}

/-- The edit leaves what is seen of the forest as it was, however it ends. -/
def Leaves (view : Forest → γ) (e : Edit α) (f : Forest) : Prop := view (e.run f).2 = view f

theorem leaves_bind {e : Edit α} {next : α → Edit β} (he : e.Leaves view f)
    (hn : ∀ a g, e.run f = (.ok a, g) → (next a).Leaves view g) :
    (e >>= next).Leaves view f := by
  unfold Leaves at he ⊢
  rw [run_bind]
  rcases hr : e.run f with ⟨r, g⟩
  rw [hr] at he
  cases r with
  | error fault => exact he
  | ok a => exact (hn a g hr).trans he

theorem leaves_inspect_bind {look : Forest → Except Fault α} {next : α → Edit β}
    (h : ∀ a, look f = .ok a → (next a).Leaves view f) :
    (inspect look >>= next).Leaves view f := by
  unfold Leaves
  rw [run_inspect_bind]
  cases hl : look f with
  | error fault => rfl
  | ok a => exact h a hl

theorem leaves_mapM {e : α → Edit β} {as : List α} (h : ∀ a ∈ as, ∀ f, (e a).Leaves view f)
    (f : Forest) : (as.mapM e).Leaves view f := by
  induction as generalizing f with
  | nil => rfl
  | cons a as ih =>
    have hrest := ih fun x hx => h x (List.mem_cons_of_mem a hx)
    rw [List.mapM_cons]
    refine leaves_bind (h a List.mem_cons_self f) fun b g _ => ?_
    exact leaves_bind (hrest g) fun bs _ _ => rfl

end Edit

def Operation.writes : Operation → Bool
  | definedType _ | fork _ => false
  | _ => true

namespace Forest

open Edit

variable {γ : Type} {view : Forest → γ} {f : Forest} {id t : DeclId} {u : UnitId} {c : Content}

/-- A registration does nothing, or else it is one that nothing speaks against. -/
theorem run_register_eq_or (f : Forest) (id : DeclId) (o : Owner) :
    ((register id o).run f).2 = f ∨
      ∃ x kind, f.Admissible id o x kind ∧ ((register id o).run f).2 = f.attach id o := by
  cases hc : f.checkRegistration id o with
  | error fault => exact .inl (by rw [run_register_of_error hc])
  | ok verdict =>
    cases verdict with
    | alreadyThere => exact .inl (by rw [run_register_of_alreadyThere hc])
    | pending =>
      obtain ⟨x, kind, ha⟩ := checkRegistration_eq_pending_iff.mp hc
      refine .inr ⟨x, kind, ha, ?_⟩
      unfold register
      rw [run_inspect_bind_of_ok hc]
      exact congrArg Prod.snd ha.run_commit

theorem ne_package_of_importing {target : Descriptor} {c : Content}
    (h : Content.importing target = .ok c) (name : String) : c ≠ .package name := by
  unfold Content.importing at h
  split at h
  · simp at h
  · obtain rfl := Except.ok.inj h
    simp

theorem ne_package_of_importingStatic {target : Descriptor} {member : String} {c : Content}
    (h : Content.importingStatic target member = .ok c) (name : String) : c ≠ .package name := by
  unfold Content.importingStatic at h
  split at h
  · simp at h
  · obtain rfl := Except.ok.inj h
    simp

/-- Of what edits do, the view shows what units take for their packages and nothing else. -/
structure Overlooks (view : Forest → γ) : Prop where
  declare : ∀ f c, view (f.withNew c) = view f
  member : ∀ f id t, view (f.attach id (.type t)) = view f
  unit : ∀ f id u x kind, f.Admissible id (.unit u) x kind → (∀ name, x.content ≠ .package name) →
    view (f.attach id (.unit u)) = view f

namespace Overlooks

variable (hv : Overlooks view)

include hv

theorem register_leaves : (register id (.type t)).Leaves view f := by
  rcases f.run_register_eq_or id (.type t) with he | ⟨x, kind, -, he⟩
  · exact congrArg view he
  · exact (congrArg view he).trans (hv.member f id t)

theorem add_leaves : (add t id).Leaves view f :=
  leaves_inspect_bind fun _ _ => hv.register_leaves

theorem addNew_leaves (c : Content) : (addNew t c).Leaves view f :=
  leaves_bind (hv.declare f c) fun _ _ _ => leaves_bind hv.add_leaves fun _ _ _ => rfl

theorem foldl_attach (f : Forest) (ids : List DeclId) :
    view (ids.foldl (fun f id => f.attach id (.type t)) f) = view f := by
  induction ids generalizing f with
  | nil => rfl
  | cons id ids ih => exact (ih (f.attach id (.type t))).trans (hv.member f id t)

theorem addAll_leaves {ids : List DeclId} : (addAll t ids).Leaves view f := by
  refine leaves_inspect_bind fun _ _ => leaves_inspect_bind fun found hfound => ?_
  unfold Leaves
  rw [(pending_batch hfound).run_commit]
  exact hv.foldl_attach f found

theorem importOnce_leaves (hc : ∀ name, c ≠ .package name) (f : Forest) :
    (importOnce u c).Leaves view f := by
  refine leaves_inspect_bind fun found _ => ?_
  cases found with
  | some id => rfl
  | none =>
    refine leaves_bind (hv.declare f c) fun id g hg => leaves_bind ?_ fun _ _ _ => rfl
    obtain ⟨hid, rfl⟩ := Prod.mk.inj hg
    obtain rfl := Except.ok.inj hid
    rcases run_register_eq_or (f.withNew c) ⟨f.decls.size⟩ (.unit u) with he | ⟨x, kind, ha, he⟩
    · exact congrArg view he
    · refine (congrArg view he).trans (hv.unit _ _ _ _ _ ha fun name hname => ?_)
      -- what was declared is what is registered, and it is no package
      have hx := ha.found
      rw [get?_withNew_self] at hx
      obtain rfl := Option.some.inj hx
      cases c <;> simp_all [Content.fresh]

theorem importType_leaves {target : Descriptor} : (importType u target).Leaves view f := by
  refine leaves_inspect_bind fun _ _ => ?_
  cases hc : Content.importing target with
  | error fault => rfl
  | ok c => exact hv.importOnce_leaves (ne_package_of_importing hc) f

theorem importCollected_leaves (f : Forest) (u : UnitId)
    {collected : Except Fault (List Content) × Registry}
    (hc : ∀ contents, collected.1 = .ok contents → ∀ c ∈ contents, ∀ name, c ≠ .package name) :
    view (f.importCollected u collected).2.1 = view f := by
  rcases collected with ⟨result, r⟩
  cases result with
  | error fault => rfl
  | ok contents =>
    exact leaves_mapM (fun c hm => hv.importOnce_leaves (hc contents rfl c hm)) f

theorem importTypes_leaves (f : Forest) (r : Registry) (u : UnitId) (types : List ExternalType) :
    view (f.importTypes r u types).2.1 = view f := by
  unfold importTypes
  cases f.unit u with
  | error fault => rfl
  | ok unit =>
    refine hv.importCollected_leaves f u fun contents hok c hc => ?_
    obtain ⟨_, d, hd⟩ := Registry.exists_use_of_mem_collect hok c hc
    exact ne_package_of_importing hd

theorem importStatic_leaves (f : Forest) (r : Registry) (u : UnitId) (members : List ExternalMember) :
    view (f.importStatic r u members).2.1 = view f := by
  unfold importStatic
  cases f.unit u with
  | error fault => rfl
  | ok unit =>
    cases members.find? fun m => !m.isStatic with
    | some m => rfl
    | none =>
      refine hv.importCollected_leaves f u fun contents hok c hc => ?_
      obtain ⟨member, d, hd⟩ := Registry.exists_use_of_mem_collect hok c hc
      exact ne_package_of_importingStatic hd

end Overlooks

structure Disregards (view : Forest → γ) : Prop where
  newUnit : ∀ f, view { f with units := f.units.push .empty } = view f
  declare : ∀ f c, view (f.withNew c) = view f
  attach : ∀ f id o, view (f.attach id o) = view f
  modifiers : ∀ f id m,
    view (f.updateDecl id fun d => { d with content := d.content.setModifiers m }) = view f
  superclass : ∀ f id super t t', f.type? id = some t → t.extending super = .ok t' →
    view (f.updateType id fun _ => t') = view f
  superInterface : ∀ f id face, view (f.updateType id (·.implementing face)) = view f
  comments : ∀ f id (change : Comments → Comments),
    view (f.updateDecl id fun d => { d with comments := change d.comments }) = view f

namespace Disregards

variable (hv : Disregards view)

include hv

theorem overlooks : Overlooks view where
  declare := hv.declare
  member f id t := hv.attach f id (.type t)
  unit f id u _ _ _ _ := hv.attach f id (.unit u)

theorem register_leaves {o : Owner} : (register id o).Leaves view f := by
  rcases f.run_register_eq_or id o with he | ⟨x, kind, -, he⟩
  · exact congrArg view he
  · exact (congrArg view he).trans (hv.attach f id o)

theorem setPackageDefinition_leaves : (setPackageDefinition u id).Leaves view f := by
  refine leaves_inspect_bind fun d _ => ?_
  cases d.content with
  | package name => exact hv.register_leaves
  | _ => rfl

theorem setPackage_leaves (name : String) : (setPackage u name).Leaves view f :=
  leaves_inspect_bind fun _ _ => leaves_bind (hv.declare f (.package name)) fun _ _ _ =>
    leaves_bind hv.setPackageDefinition_leaves fun _ _ _ => rfl

theorem comment_leaves (change : Comments → Comments) : (comment id change).Leaves view f :=
  leaves_inspect_bind fun _ _ => hv.comments f id change

theorem setModifiers_leaves (m : Modifiers) : (setModifiers id m).Leaves view f :=
  leaves_inspect_bind fun _ _ => hv.modifiers f id m

theorem addSuperInterface_leaves (face : Descriptor) :
    (addSuperInterface id face).Leaves view f := by
  refine leaves_inspect_bind fun _ _ => ?_
  exact hv.superInterface f id face

theorem extend_leaves (super : Descriptor) : (extend id super).Leaves view f := by
  refine leaves_inspect_bind fun t ht => ?_
  cases he : t.extending super with
  | error fault => rfl
  | ok t' => exact hv.superclass f id super t t' (typeDefinition_eq_ok_iff.mp ht) he

/-- So no operation changes it, however the operation ends. -/
theorem perform {op : Operation} (hop : op.writes = true) (f : Forest) :
    view (op.perform f).2 = view f := by
  cases op with
  | declare c => exact hv.declare f c
  | newUnit => exact hv.newUnit f
  | register id o => exact hv.register_leaves
  | add type id => exact hv.overlooks.add_leaves
  | addAll type ids => exact hv.overlooks.addAll_leaves
  | addNew type c => exact hv.overlooks.addNew_leaves c
  | addToUnit u id => exact hv.register_leaves
  | setPackage u name => exact hv.setPackage_leaves name
  | setPackageDefinition u id => exact hv.setPackageDefinition_leaves
  | importType u target => exact hv.overlooks.importType_leaves
  | importTypes r u types => exact hv.overlooks.importTypes_leaves f r u types
  | importStatic r u members => exact hv.overlooks.importStatic_leaves f r u members
  | setModifiers id m => exact hv.setModifiers_leaves m
  | extend id super => exact hv.extend_leaves super
  | addSuperInterface id face => exact hv.addSuperInterface_leaves face
  | setDoc id text => exact hv.comment_leaves _
  | setBlock id text => exact hv.comment_leaves _
  | addLine id text => exact hv.comment_leaves _
  | definedType id => simp [Operation.writes] at hop
  | fork number => simp [Operation.writes] at hop

end Disregards

end Forest

end DeclForest
