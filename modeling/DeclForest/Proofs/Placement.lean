import DeclForest.Proofs.Effect
import DeclForest.Proofs.Legality

/-!
Declarations are well formed where they stand. Modifiers are set long before a declaration has an
owner and may be set again after that, each time under the mask of the place it is in by then; a
registration checks them under the mask of the new place, and a package that is driven out of its
place goes back to the most generous one. `Made` forests are those that a client makes from
builders, copies of declarations and operations, and `made_wellPlaced` is about all of them.
-/

namespace DeclForest

namespace Forest

variable {f g : Forest} {P : Content → Prop} {id d : DeclId} {o : Option Owner}
  {place : Option OwnerKind} {m : Modifiers}

inductive Place (f : Forest) : Option Owner → Option OwnerKind → Prop where
  | detached : Place f none none
  | owned {o : Owner} {kind : OwnerKind} : f.StandsAs o kind → Place f (some o) (some kind)

def WellPlaced (f : Forest) : Prop :=
  ∀ d x, f.get? d = some x → ∃ place, f.Place x.owner place ∧ x.content.WellFormedIn place

theorem StandsAs.after_change {o : Owner} {kind : OwnerKind} (hk : f.StandsAs o kind)
    (h : Change P f g) : g.StandsAs o kind := by
  cases hk with
  | unit hu =>
    obtain ⟨unit, hu'⟩ := Option.isSome_iff_exists.mp (h.isSome_unit? (Option.isSome_of_eq_some hu))
    exact .unit hu'
  | @type t definition ht =>
    have hl := lasting?_eq_type_iff.mpr ⟨definition, ht, rfl, rfl⟩
    obtain ⟨definition', ht', hkind, -⟩ := lasting?_eq_type_iff.mp (h.lasting hl)
    exact hkind ▸ .type ht'

theorem Place.after_change (hp : f.Place o place) (h : Change P f g) : g.Place o place := by
  cases hp with
  | detached => exact .detached
  | owned hk => exact .owned (hk.after_change h)

/-- What a check of modifiers looks at is the mask of the place, or that there is none. -/
theorem checkModifiers_of_place {x : Declaration} (hx : f.get? id = some x)
    (hp : f.Place x.owner place) (m : Modifiers) :
    f.checkModifiers id m =
      match x.content.construct? place with
      | some construct => construct.check m
      | none => if m.isEmpty then .ok () else .error (.invalidModifier m.display (f.describe id)) := by
  have hkind : (f.owner? id).mapM f.ownerKind = .ok place := by
    rw [owner?, hx]
    rcases x with ⟨c, o, k⟩
    cases hp with
    | detached => rfl
    | owned hk =>
      obtain hk := ownerKind_eq_ok_iff.mpr hk
      simp [hk]
  simp only [checkModifiers, hkind, ok_bind, declaration_eq_ok_iff.mpr hx]
  cases x.content.construct? place with
  | some construct => rfl
  | none => cases m.isEmpty <;> rfl

theorem check_of_checkModifiers {x : Declaration} (h : f.checkModifiers id m = .ok ())
    (hx : f.get? id = some x) (hp : f.Place x.owner place) {construct : ConstructKind}
    (hc : x.content.construct? place = some construct) : construct.check m = .ok () := by
  rw [checkModifiers_of_place hx hp, hc] at h
  exact h

theorem Change.wellPlaced (hf : f.Invariant) (h : Change (fun c => c.WellFormedIn none) f g)
    (hw : f.WellPlaced) : g.WellPlaced := by
  intro d y hy
  cases h.turned hf hy with
  | untouched hx =>
    obtain ⟨place, hp, hc⟩ := hw d y hx
    exact ⟨place, hp.after_change h, hc⟩
  | declared _ hc => exact ⟨none, .detached, hc.fresh⟩
  | registered ha =>
    obtain ⟨_, -, hc⟩ := hw d _ ha.found
    exact ⟨_, .owned ((ownerKind_eq_ok_iff.mp ha.ownerKind).after_change h),
      Content.legalIn_of_fits ha.fits ha.legal, hc.heritage⟩
  | drivenOut hx =>
    obtain ⟨place, -, hc⟩ := hw d _ hx
    exact ⟨none, .detached, hc.detached⟩
  | gained hx =>
    obtain ⟨place, hp, hc⟩ := hw d _ hx
    exact ⟨place, hp.after_change h, hc.of_type rfl rfl ((hc.heritage _ rfl).congr rfl rfl rfl)⟩
  | modified hx hm =>
    obtain ⟨place, hp, hc⟩ := hw d _ hx
    exact ⟨place, hp.after_change h, hc.setModifiers fun _ => check_of_checkModifiers hm hx hp⟩
  | extended hx he =>
    obtain ⟨place, hp, hc⟩ := hw d _ hx
    obtain ⟨-, -, rfl⟩ := TypeDefinition.extending_eq_ok_iff.mp he
    exact ⟨place, hp.after_change h, hc.of_type rfl rfl ((hc.heritage _ rfl).extending he)⟩
  | @implementing t _ _ face hx =>
    obtain ⟨place, hp, hc⟩ := hw d _ hx
    exact ⟨place, hp.after_change h, hc.of_type (t.kind_implementing face)
      (t.modifiers_implementing face) ((hc.heritage _ rfl).implementing face)⟩
  | issued hx =>
    obtain ⟨place, hp, hc⟩ := hw d _ hx
    exact ⟨place, hp.after_change h, hc.of_type rfl rfl ((hc.heritage _ rfl).congr rfl rfl rfl)⟩
  | commented hx =>
    obtain ⟨place, hp, hc⟩ := hw d _ hx
    exact ⟨place, hp.after_change h, hc⟩

theorem empty_wellPlaced (number : Nat) : (empty number).WellPlaced := by
  intro d x hx
  simp [empty, get?] at hx

theorem WellPlaced.perform (hf : f.Invariant) (hw : f.WellPlaced) {op : Operation}
    (hop : ∀ c ∈ op.contents, c.WellFormedIn none) :
    (op.perform f).2.Invariant ∧ (op.perform f).2.WellPlaced :=
  Changes.keep (I := fun f => f.Invariant ∧ f.WellPlaced)
    (fun h hfw => ⟨h.invariant hfw.1, h.wellPlaced hfw.1 hfw.2⟩)
    (perform_changes (coversUnits_isUnitLevel.mono fun _ hc => hc.wellFormedIn) hop f) ⟨hf, hw⟩

end Forest

mutual

/-- What a client has in hand: the work of builders, and copies of what is declared somewhere. -/
inductive Content.Built : Content → Prop where
  | blank {c : Content} : c.Blank → Content.Built c
  | refined {c c' : Content} : Content.Built c → c.Refines c' → Content.Built c'
  | copied {f : Forest} {d : DeclId} {x : Declaration} : Forest.Made f → f.get? d = some x →
      Content.Built x.content

/-- What a client makes of forests: any operation may follow, with anything else it has in hand. -/
inductive Forest.Made : Forest → Prop where
  | empty (number : Nat) : Forest.Made (Forest.empty number)
  | performed {f : Forest} {op : Operation} : Forest.Made f →
      (∀ c ∈ op.contents, Content.Built c) → Forest.Made (op.perform f).2

end

namespace Forest

/-- By induction on how the forest and the contents declared in it were made. -/
theorem made_wellPlaced {f : Forest} (h : f.Made) : f.WellPlaced := by
  refine (@Made.rec (fun c _ => c.WellFormedIn none) (fun f _ => f.Invariant ∧ f.WellPlaced)
    ?blank ?refined ?copied ?empty ?performed f h).2
  case blank =>
    intro c hc
    exact hc.wellFormedIn
  case refined =>
    intro c c' _ hr hc
    exact hr.wellFormedIn hc
  case copied =>
    intro f d x _ hx hf
    obtain ⟨_, -, hc⟩ := hf.2 d x hx
    exact hc.detached
  case empty => exact fun number => ⟨empty_invariant number, empty_wellPlaced number⟩
  case performed =>
    intro f op _ _ hf hc
    exact hf.2.perform hf.1 hc

theorem Made.after {f : Forest} (hf : f.Made) {ops : List Operation}
    (hops : ∀ op ∈ ops, ∀ c ∈ op.contents, c.Built) : (f.after ops).Made := by
  induction ops generalizing f with
  | nil => exact hf
  | cons op ops ih =>
    exact ih (hf.performed (hops op List.mem_cons_self))
      fun x hx => hops x (List.mem_cons_of_mem op hx)

/-- A static nested class with a superclass and one interface, which is given to it twice, by two
issuers; the second set of modifiers and a superclass for the interface are refused. -/
def nestedRun : List Operation :=
  [.newUnit, .declare (.type (.ofName .interfaceKind "Shape")), .addToUnit ⟨0⟩ ⟨0⟩,
   .addNew ⟨0⟩ (.type (.ofName .classKind "Square")),
   .setModifiers ⟨1⟩ (.ofFlags [.publicAccess, .static]),
   .setModifiers ⟨1⟩ (.ofFlag .privateAccess),
   .extend ⟨1⟩ ⟨7, .external ⟨"a.Base", .classType, none, []⟩⟩,
   .extend ⟨0⟩ ⟨7, .external ⟨"a.Base", .classType, none, []⟩⟩,
   .addSuperInterface ⟨1⟩ ⟨7, .external ⟨"a.Face", .interfaceType, none, []⟩⟩,
   .addSuperInterface ⟨1⟩ ⟨8, .external ⟨"a.Face", .interfaceType, none, []⟩⟩]

def nestedSquare : TypeDefinition :=
  { kind := .classKind
    name := "Square"
    modifiers := .ofFlags [.publicAccess, .static]
    superclass := some ⟨7, .external ⟨"a.Base", .classType, none, []⟩⟩
    superInterfaces := [⟨7, .external ⟨"a.Face", .interfaceType, none, []⟩⟩]
    members := []
    issuer := none }

def copyRun : List Operation :=
  [.newUnit, .declare (.type nestedSquare), .addToUnit ⟨0⟩ ⟨0⟩,
   .setModifiers ⟨0⟩ (.ofFlag .privateAccess), .addToUnit ⟨0⟩ ⟨0⟩,
   .setModifiers ⟨0⟩ (.ofFlags [.publicAccess, .final]), .addToUnit ⟨0⟩ ⟨0⟩,
   .setModifiers ⟨0⟩ (.ofFlag .static)]

theorem copy_wellPlaced :
    ((empty 1).after copyRun).Made ∧ ((empty 1).after copyRun).WellPlaced := by
  have hnested : ((empty 0).after nestedRun).Made := by
    refine (Made.empty 0).after ?_
    have hshape := Content.Built.blank (.type .interfaceKind "Shape")
    have hsquare := Content.Built.blank (.type .classKind "Square")
    simpa [nestedRun, Operation.contents] using And.intro hshape hsquare
  have hget : ((empty 0).after nestedRun).get? ⟨1⟩ =
      some ⟨.type nestedSquare, some (.type ⟨0⟩), .none⟩ := by decide +kernel
  have hcopy : ((empty 1).after copyRun).Made := by
    refine (Made.empty 1).after ?_
    simpa [copyRun, Operation.contents] using Content.Built.copied hnested hget
  exact ⟨hcopy, made_wellPlaced hcopy⟩

end Forest

end DeclForest
