import DeclForest.Proofs.Ancestry
import DeclForest.Proofs.Ownership
import DeclForest.Proofs.Refusal

/-!
The meaning of a registration. `Outcome` lists how it may end, in the order in which the reasons
count, and in words that do not mention the check or the commit: who is there, who owns what, which
kinds an owner holds and whether the owner lies inside the declaration. A registration that nothing
speaks against changes the owner, the end of one collection and the package it drives out.
-/

namespace DeclForest

def OwnerKind.mayHold : OwnerKind → Content → Bool
  | .unitOwner, .package _ | .unitOwner, .typeImport _ | .unitOwner, .staticImport ..
  | .unitOwner, .type _ => true
  | .unitOwner, _ => false
  | .classOwner, c => c.mayStandIn .classKind
  | .interfaceOwner, c => c.mayStandIn .interfaceKind

theorem Content.fits_eq_mayHold (c : Content) (kind : OwnerKind) :
    c.fits kind = kind.mayHold c := by
  cases kind with
  | unitOwner => cases c <;> rfl
  | classOwner => exact c.fits_owner .classKind
  | interfaceOwner => exact c.fits_owner .interfaceKind

def Content.withMember (id : DeclId) : Content → Content
  | .type t => .type { t with members := t.members ++ [id] }
  | other => other

def CompilationUnit.receiving (u : CompilationUnit) (id : DeclId) : Content → CompilationUnit
  | .package _ => { u with package := some id }
  | .typeImport _ => { u with imports := u.imports ++ [id] }
  | .staticImport .. => { u with staticImports := u.staticImports ++ [id] }
  | _ => { u with types := u.types ++ [id] }

theorem CompilationUnit.hold_eq_receiving {u : CompilationUnit} {id : DeclId} (h : id ∉ u.all)
    (c : Content) : u.hold id c = u.receiving id c := by
  simp only [all, List.mem_append, not_or] at h
  cases c <;> simp [hold, receiving, addUnique, h]

namespace Forest

variable {f g : Forest} {id d : DeclId} {o : Owner} {x : Declaration} {kind : OwnerKind}

theorem eq_of_look_ups (hn : g.number = f.number) (hd : ∀ d, g.get? d = f.get? d)
    (hu : ∀ u, g.unit? u = f.unit? u) : g = f := by
  rcases f with ⟨n, ds, us⟩
  rcases g with ⟨n', ds', us'⟩
  obtain rfl : ds' = ds := Array.ext_getElem? fun i => hd ⟨i⟩
  obtain rfl : us' = us := Array.ext_getElem? fun i => hu ⟨i⟩
  obtain rfl : n' = n := hn
  rfl

inductive StandsAs (f : Forest) : Owner → OwnerKind → Prop where
  | unit {u : UnitId} {unit : CompilationUnit} : f.unit? u = some unit →
      StandsAs f (.unit u) .unitOwner
  | type {t : DeclId} {definition : TypeDefinition} : f.type? t = some definition →
      StandsAs f (.type t) definition.kind.owner

theorem ownerKind_eq_ok_iff : f.ownerKind o = .ok kind ↔ f.StandsAs o kind := by
  cases o with
  | unit u =>
    rw [ownerKind_unit_eq_ok_iff]
    constructor
    · rintro ⟨⟨unit, hu⟩, rfl⟩
      exact .unit hu
    · rintro ⟨hu⟩
      exact ⟨⟨_, hu⟩, rfl⟩
  | type t =>
    rw [ownerKind_type_eq_ok_iff]
    constructor
    · rintro ⟨definition, ht, rfl⟩
      exact .type ht
    · rintro (_ | ht)
      exact ⟨_, ht, rfl⟩

def LiesWithin (f : Forest) (id : DeclId) : Owner → Prop
  | .type t => Relation.ReflTransGen f.OwnedBy t id
  | .unit _ => False

theorem Invariant.ownerIsWithin_iff (hf : f.Invariant) :
    f.ownerIsWithin id o = true ↔ f.LiesWithin id o := by
  cases o with
  | unit u => simp [ownerIsWithin, LiesWithin]
  | type t => simp [ownerIsWithin, LiesWithin, hf.mem_ancestors_iff]

theorem Invariant.ownerIsWithin_eq_false (hf : f.Invariant) (h : ¬ f.LiesWithin id o) :
    f.ownerIsWithin id o = false := by
  rw [← Bool.not_eq_true, hf.ownerIsWithin_iff]
  exact h

theorem Invariant.admissible (hf : f.Invariant) (hx : f.get? id = some x) (hk : f.StandsAs o kind)
    (ho : x.owner = none) (hfit : kind.mayHold x.content = true) (hin : ¬ f.LiesWithin id o)
    (hm : ∀ construct, x.content.construct? (some kind) = some construct →
      construct.allows x.content.modifiers = true) : f.Admissible id o x kind where
  found := hx
  ownerKind := ownerKind_eq_ok_iff.mpr hk
  detached := ho
  fits := (x.content.fits_eq_mayHold kind).trans hfit
  outside := hf.ownerIsWithin_eq_false hin
  legal := hm

def slot? (f : Forest) : Owner → Content → Option DeclId
  | .unit u, .package _ => (f.unit? u).bind CompilationUnit.package
  | _, _ => none

theorem slot?_of_not_package {c : Content} (hc : ∀ name, c ≠ .package name) (o : Owner) :
    f.slot? o c = none := by
  unfold slot?
  split
  · exact absurd rfl (hc _)
  · rfl

/-- All that a registration changes: the owner of the declaration, the end of one collection, and
the owner of the package that was in its slot. -/
structure Registered (f : Forest) (id : DeclId) (o : Owner) (x : Declaration) (g : Forest) :
    Prop where
  number : g.number = f.number
  declaration : ∀ d, g.get? d = (f.get? d).map fun y =>
    { content := if o = .type d then y.content.withMember id else y.content
      owner := if d = id then some o else if f.slot? o x.content = some d then none else y.owner
      comments := y.comments }
  unit : ∀ u, g.unit? u = (f.unit? u).map fun unit =>
    if o = .unit u then unit.receiving id x.content else unit

/-- How a registration ends. Each case comes with the negation of those before it. -/
inductive Outcome (f : Forest) (id : DeclId) : Owner → Except Fault Unit × Forest → Prop where
  | unknown {o : Owner} : f.get? id = none →
      Outcome f id o (.error (.unknownDeclaration id.display), f)
  | noUnit {u : UnitId} {x : Declaration} : f.get? id = some x → f.unit? u = none →
      Outcome f id (.unit u) (.error (.unknownDeclaration u.display), f)
  | noOwner {t : DeclId} {x : Declaration} : f.get? id = some x → f.get? t = none →
      Outcome f id (.type t) (.error (.unknownDeclaration t.display), f)
  | noType {t : DeclId} {x y : Declaration} : f.get? id = some x → f.get? t = some y →
      y.content.type? = none →
      Outcome f id (.type t) (.error (.illegalOwner "a member" (f.describe t)), f)
  | same {o : Owner} {x : Declaration} {kind : OwnerKind} : f.get? id = some x →
      f.StandsAs o kind → x.owner = some o → Outcome f id o (.ok (), f)
  | conflict {o current : Owner} {x : Declaration} {kind : OwnerKind} : f.get? id = some x →
      f.StandsAs o kind → x.owner = some current → current ≠ o →
      Outcome f id o (.error (.ownershipConflict (f.describe id) (f.describeOwner current)
        (f.describeOwner o)), f)
  | unfit {o : Owner} {x : Declaration} {kind : OwnerKind} : f.get? id = some x →
      f.StandsAs o kind → x.owner = none → kind.mayHold x.content = false →
      Outcome f id o (.error (.illegalOwner (f.describe id) (f.describeOwner o)), f)
  | cyclic {o : Owner} {x : Declaration} {kind : OwnerKind} : f.get? id = some x →
      f.StandsAs o kind → x.owner = none → kind.mayHold x.content = true → f.LiesWithin id o →
      Outcome f id o (.error (.cyclicOwnership (f.describe id) (f.describeOwner o)), f)
  | illegal {o : Owner} {x : Declaration} {kind : OwnerKind} {construct : ConstructKind} :
      f.get? id = some x → f.StandsAs o kind → x.owner = none → kind.mayHold x.content = true →
      ¬ f.LiesWithin id o → x.content.construct? (some kind) = some construct →
      construct.allows x.content.modifiers = false →
      Outcome f id o (.error (.invalidModifier (construct.offending x.content.modifiers).display
        construct.display), f)
  | registered {o : Owner} {x : Declaration} {kind : OwnerKind} {g : Forest} :
      f.get? id = some x → f.StandsAs o kind → x.owner = none → kind.mayHold x.content = true →
      ¬ f.LiesWithin id o →
      (∀ construct, x.content.construct? (some kind) = some construct →
        construct.allows x.content.modifiers = true) →
      f.Registered id o x g → Outcome f id o (.ok (), g)

@[simp] theorem number_attach (f : Forest) (id : DeclId) (o : Owner) :
    (f.attach id o).number = f.number := by
  cases o with
  | type t => rfl
  | unit u =>
    cases hx : f.get? id with
    | none => simp [attach, hx]
    | some x =>
      rw [attach_unit hx]
      cases f.replaced? id (.unit u) <;> rfl

theorem Registered.unique {g' : Forest} (h : f.Registered id o x g)
    (h' : f.Registered id o x g') : g = g' :=
  eq_of_look_ups (h.number.trans h'.number.symm)
    (fun d => (h.declaration d).trans (h'.declaration d).symm)
    (fun u => (h.unit u).trans (h'.unit u).symm)

theorem standsAs_type_iff {t : DeclId} :
    f.StandsAs (.type t) kind ↔
      ∃ k, (f.type? t).map TypeDefinition.kind = some k ∧ k.owner = kind := by
  constructor
  · rintro (_ | ht)
    exact ⟨_, congrArg (Option.map TypeDefinition.kind) ht, rfl⟩
  · rintro ⟨k, hk, rfl⟩
    obtain ⟨definition, ht, rfl⟩ := Option.map_eq_some_iff.mp hk
    exact .type ht

/-- A registration makes no owner of what was none and leaves each the kind that it has. -/
theorem Registered.standsAs_iff (hg : f.Registered id o x g) {owner : Owner} :
    g.StandsAs owner kind ↔ f.StandsAs owner kind := by
  cases owner with
  | unit u =>
    have hu := hg.unit u
    constructor
    · rintro ⟨hunit⟩
      rw [hunit] at hu
      obtain ⟨unit, hunit, -⟩ := Option.map_eq_some_iff.mp hu.symm
      exact .unit hunit
    · rintro ⟨hunit⟩
      rw [hunit] at hu
      exact .unit hu
  | type t =>
    have hkind : (g.type? t).map TypeDefinition.kind = (f.type? t).map TypeDefinition.kind := by
      unfold type?
      rw [hg.declaration t]
      cases f.get? t with
      | none => rfl
      | some y =>
        obtain ⟨c, owner, comments⟩ := y
        by_cases ho : o = .type t <;> cases c <;> simp [ho, Content.withMember, Content.type?]
    rw [standsAs_type_iff, standsAs_type_iff, hkind]

section Attached

variable (hf : f.Invariant) (h : f.Admissible id o x kind)

include hf h

/-- The package in the slot is driven out in any case: it has an owner, so it is not the new one. -/
theorem Invariant.replaced?_eq_slot? : f.replaced? id o = f.slot? o x.content := by
  cases ho : o with
  | type t => rfl
  | unit u =>
    obtain ⟨unit, hu, -⟩ := h.exists_unit ho
    have hslot := (hf.not_mem_of_detached h.owner?_eq_none hu).1
    rw [replaced?_unit h.found hu]
    cases hc : x.content with
    | package name =>
      have hkeep : unit.package.filter (fun d => d ≠ id) = unit.package := by
        cases hp : unit.package with
        | none => rfl
        | some d =>
          have hd : d ≠ id := fun he => hslot (hp.trans (congrArg some he))
          simp [hd]
      simpa [CompilationUnit.driven, slot?, hu] using hkeep
    | _ => rfl

theorem Invariant.get?_attach (d : DeclId) :
    (f.attach id o).get? d = (f.get? d).map fun y =>
      { content := if o = .type d then y.content.withMember id else y.content
        owner := if d = id then some o else if f.slot? o x.content = some d then none else y.owner
        comments := y.comments } := by
  cases ho : o with
  | type t =>
    rw [ho] at h
    obtain ⟨definition, ht, -⟩ := ownerKind_type_eq_ok_iff.mp h.ownerKind
    obtain ⟨owner, comments, hparent⟩ := type?_eq_some_iff.mp ht
    have hid : id ∉ definition.members := by
      rw [← held_type_of_type? ht]
      exact hf.not_mem_held h.owner?_eq_none (.type t)
    simp only [Forest.attach, updateType, get?_updateDecl, get?_setOwner, slot?, Owner.type.injEq]
    by_cases hd : d = t
    · subst hd
      simp [Ne.symm h.ne_type, hparent, TypeDefinition.addMember, hid, Content.withMember]
    · by_cases hdi : d = id
      · simp [hdi, h.ne_type, Ne.symm h.ne_type]
      · simp [hd, hdi, Ne.symm hd]
  | unit u =>
    have hr := hf.replaced?_eq_slot? h
    have hself := h.replaced?_ne_self
    subst ho
    rw [attach_unit h.found, ← hr]
    cases hp : f.replaced? id (.unit u) with
    | none =>
      by_cases hdi : d = id <;> simp [get?_setOwner, hdi]
    | some previous =>
      have hne : previous ≠ id := fun he => hself (hp.trans (congrArg some he))
      by_cases hdi : d = id
      · simp [get?_setOwner, hdi, Ne.symm hne]
      · by_cases hdp : d = previous
        · simp [get?_setOwner, hdp, hne]
        · simp [get?_setOwner, hdi, hdp, Ne.symm hdp]

/-- The owner gains a member and the declaration an owner; no package is driven out. -/
theorem Invariant.get?_attach_of_not_package (hx : ∀ name, x.content ≠ .package name) (d : DeclId) :
    (f.attach id o).get? d = (f.get? d).map fun y =>
      { y with
        content := if o = .type d then y.content.withMember id else y.content
        owner := if d = id then some o else y.owner } := by
  simp [hf.get?_attach h, slot?_of_not_package hx]

theorem Invariant.unit?_attach (u : UnitId) :
    (f.attach id o).unit? u = (f.unit? u).map fun unit =>
      if o = .unit u then unit.receiving id x.content else unit := by
  cases ho : o with
  | type t =>
    have hsame : (f.attach id (.type t)).unit? u = f.unit? u := rfl
    simp [hsame]
  | unit v =>
    rw [← ho, h.unit?_attach ho]
    by_cases hv : u = v
    · subst hv
      cases hu : f.unit? u with
      | none => simp
      | some unit =>
        have hid : id ∉ unit.all := by
          rw [← held_unit_of_unit? hu]
          exact hf.not_mem_held h.owner?_eq_none (.unit u)
        simp [ho, CompilationUnit.hold_eq_receiving hid]
    · simp [hv, ho, Ne.symm hv]

theorem Invariant.attach_registered : f.Registered id o x (f.attach id o) := by
  exact ⟨number_attach f id o, hf.get?_attach h, hf.unit?_attach h⟩

end Attached

theorem checkRegistration_of_found (hx : f.get? id = some x) (hk : f.StandsAs o kind) :
    f.checkRegistration id o =
      match x.owner with
      | some current =>
        if current = o then .ok .alreadyThere
        else .error (.ownershipConflict (f.describe id) (f.describeOwner current)
          (f.describeOwner o))
      | none =>
        if kind.mayHold x.content = false then
          .error (.illegalOwner (f.describe id) (f.describeOwner o))
        else if f.ownerIsWithin id o then
          .error (.cyclicOwnership (f.describe id) (f.describeOwner o))
        else
          match x.content.construct? (some kind) with
          | some construct => (construct.check x.content.modifiers).map fun _ => .pending
          | none => .ok .pending := by
  simp only [checkRegistration, declaration_eq_ok_iff.mpr hx, ownerKind_eq_ok_iff.mpr hk, ok_bind,
    Content.fits_eq_mayHold, throw_eq_error, pure_eq_ok, Bool.not_eq_true']
  cases x.owner with
  | some current => rfl
  | none =>
    cases x.content.construct? (some kind) with
    | none => rfl
    | some construct => cases construct.check x.content.modifiers <;> rfl

theorem run_register_of_error {fault : Fault} (h : f.checkRegistration id o = .error fault) :
    (register id o).run f = (.error fault, f) := by
  unfold register
  rw [Edit.run_inspect_bind, h]

theorem run_register_of_alreadyThere (h : f.checkRegistration id o = .ok .alreadyThere) :
    (register id o).run f = (.ok (), f) := by
  unfold register
  rw [Edit.run_inspect_bind_of_ok h]
  rfl

theorem checkRegistration_of_unknown (h : f.get? id = none) :
    f.checkRegistration id o = .error (.unknownDeclaration id.display) := by
  simp [checkRegistration, declaration, h]

theorem checkRegistration_of_ownerKind_error {fault : Fault} (hx : f.get? id = some x)
    (h : f.ownerKind o = .error fault) : f.checkRegistration id o = .error fault := by
  simp [checkRegistration, declaration_eq_ok_iff.mpr hx, h]

/-- A registration ends as each of the cases says that it does. -/
theorem Outcome.run_eq (hf : f.Invariant) {result : Except Fault Unit × Forest}
    (h : f.Outcome id o result) : (register id o).run f = result := by
  cases h with
  | unknown hx => exact run_register_of_error (checkRegistration_of_unknown hx)
  | noUnit hx hu =>
    refine run_register_of_error (checkRegistration_of_ownerKind_error hx ?_)
    simp [ownerKind, Forest.unit, hu, Except.map]
  | noOwner hx ht =>
    refine run_register_of_error (checkRegistration_of_ownerKind_error hx ?_)
    simp [ownerKind, declaration, ht]
  | noType hx hy ht =>
    refine run_register_of_error (checkRegistration_of_ownerKind_error hx ?_)
    simp [ownerKind, declaration_eq_ok_iff.mpr hy, ht]
  | same hx hk ho =>
    apply run_register_of_alreadyThere
    simp [checkRegistration_of_found hx hk, ho]
  | conflict hx hk ho hne =>
    apply run_register_of_error
    simp [checkRegistration_of_found hx hk, ho, hne]
  | unfit hx hk ho hfit =>
    apply run_register_of_error
    simp [checkRegistration_of_found hx hk, ho, hfit]
  | cyclic hx hk ho hfit hin =>
    apply run_register_of_error
    simp [checkRegistration_of_found hx hk, ho, hfit, hf.ownerIsWithin_iff.mpr hin]
  | illegal hx hk ho hfit hin hc hm =>
    apply run_register_of_error
    simp [checkRegistration_of_found hx hk, ho, hfit, hf.ownerIsWithin_eq_false hin, hc,
      ConstructKind.check, hm]
  | registered hx hk ho hfit hin hm hg =>
    have ha := hf.admissible hx hk ho hfit hin hm
    rw [hf.run_register (checkRegistration_eq_pending_iff.mpr ⟨_, _, ha⟩),
      (hf.attach_registered ha).unique hg]

/-- The cases are all there are. -/
theorem Invariant.exists_outcome (hf : f.Invariant) (id : DeclId) (o : Owner) :
    ∃ result, f.Outcome id o result := by
  cases hx : f.get? id with
  | none => exact ⟨_, .unknown hx⟩
  | some x =>
    by_cases hk : ∃ kind, f.StandsAs o kind
    · obtain ⟨kind, hk⟩ := hk
      cases ho : x.owner with
      | some current =>
        by_cases hc : current = o
        · exact ⟨_, .same hx hk (hc ▸ ho)⟩
        · exact ⟨_, .conflict hx hk ho hc⟩
      | none =>
        cases hfit : kind.mayHold x.content with
        | false => exact ⟨_, .unfit hx hk ho hfit⟩
        | true =>
          by_cases hin : f.LiesWithin id o
          · exact ⟨_, .cyclic hx hk ho hfit hin⟩
          by_cases hm : ∀ construct, x.content.construct? (some kind) = some construct →
              construct.allows x.content.modifiers = true
          · have ha := hf.admissible hx hk ho hfit hin hm
            exact ⟨_, .registered hx hk ho hfit hin hm (hf.attach_registered ha)⟩
          · simp only [not_forall, Bool.not_eq_true] at hm
            obtain ⟨construct, hc, hm⟩ := hm
            exact ⟨_, .illegal hx hk ho hfit hin hc hm⟩
    · cases o with
      | unit u =>
        cases hu : f.unit? u with
        | none => exact ⟨_, .noUnit hx hu⟩
        | some unit => exact absurd ⟨_, .unit hu⟩ hk
      | type t =>
        cases hy : f.get? t with
        | none => exact ⟨_, .noOwner hx hy⟩
        | some y =>
          cases ht : y.content.type? with
          | none => exact ⟨_, .noType hx hy ht⟩
          | some definition =>
            have htype : f.type? t = some definition := by simp [type?, hy, ht]
            exact absurd ⟨_, .type htype⟩ hk

theorem Invariant.outcome_iff (hf : f.Invariant) {result : Except Fault Unit × Forest} :
    (register id o).run f = result ↔ f.Outcome id o result := by
  constructor
  · intro h
    obtain ⟨other, hother⟩ := hf.exists_outcome id o
    rwa [← h, hother.run_eq hf]
  · exact Outcome.run_eq hf

/-- After a success the declaration has the owner, so that nothing is left to do. -/
theorem Invariant.register_again (hf : f.Invariant) (h : (register id o).run f = (.ok (), g)) :
    (register id o).run g = (.ok (), g) := by
  have hg : g.Invariant := by
    have hchanges : Changes (fun _ => True) f g := by simpa [h] using makes_register id o f
    exact Changes.keep Change.invariant hchanges hf
  cases hf.outcome_iff.mp h with
  | same hx hk ho => exact (Outcome.same hx hk ho).run_eq hf
  | registered hx hk ho hfit hin hm hreg =>
    have hy := hreg.declaration id
    rw [hx] at hy
    exact (Outcome.same hy (hreg.standsAs_iff.mpr hk) (by simp)).run_eq hg

/-- A registration has exactly the outcome that applies first, and a second one changes nothing. -/
theorem reachable_register_outcome (h : f.Reachable) (id : DeclId) (o : Owner) :
    (∀ result, (register id o).run f = result ↔ f.Outcome id o result) ∧
    ∀ g, (register id o).run f = (.ok (), g) → (register id o).run g = (.ok (), g) := by
  have hf := reachable_invariant h
  constructor
  · intro result
    exact hf.outcome_iff
  · intro g hg
    exact hf.register_again hg

/-- The package that was driven out of the sample's unit comes back and drives out the other. -/
theorem sample_register_outcome : sample.Reachable ∧
    sample.Outcome ⟨0⟩ (.unit ⟨0⟩) (.ok (), sample.attach ⟨0⟩ (.unit ⟨0⟩)) ∧
    (sample.attach ⟨0⟩ (.unit ⟨0⟩)).owner? ⟨1⟩ = none ∧
    sample.Outcome ⟨2⟩ (.type ⟨3⟩)
      (.error (.ownershipConflict "class `C`" "unit #0" "class `D`"), sample) :=
  ⟨sample_reachable,
    ((reachable_register_outcome sample_reachable ⟨0⟩ (.unit ⟨0⟩)).1 _).mp (by decide +kernel),
    by decide +kernel,
    ((reachable_register_outcome sample_reachable ⟨2⟩ (.type ⟨3⟩)).1 _).mp (by decide +kernel)⟩

end Forest

end DeclForest
