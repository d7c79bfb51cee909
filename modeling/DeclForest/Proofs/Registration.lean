import DeclForest.Proofs.Chain
import DeclForest.Proofs.View

/-!
The two halves of a registration. `checkRegistration` answers `pending` exactly for the admissible
registrations; `attach` then adds the declaration to what its owner holds, records the owner, and
detaches the package that a new one drives out. Nothing else is seen to change.
-/

namespace DeclForest

namespace CompilationUnit

def driven (u : CompilationUnit) (id : DeclId) : Content → Option DeclId
  | .package _ => u.package.filter (· ≠ id)
  | _ => none

theorem driven_ne_self (u : CompilationUnit) (id : DeclId) (c : Content) :
    u.driven id c ≠ some id := by
  cases c <;> simp [driven]

theorem mem_all_of_driven {u : CompilationUnit} {id d : DeclId} {c : Content}
    (h : u.driven id c = some d) : d ∈ u.all := by
  cases c <;> simp_all [driven, all, Option.filter_eq_some_iff]

theorem mem_all_hold {u : CompilationUnit} {id x : DeclId} {c : Content}
    (hc : c.fits .unitOwner = true) (hn : u.all.Nodup) :
    x ∈ (u.hold id c).all ↔ x = id ∨ (x ∈ u.all ∧ u.driven id c ≠ some x) := by
  have hu (ids : List DeclId) : x ∈ addUnique ids id ↔ x = id ∨ x ∈ ids := by
    unfold addUnique
    split <;> grind
  cases c with
  | package name =>
    rcases u with ⟨_ | p, is, ss, ts⟩
    · simp [all, hold, driven]
    · simp only [all, hold, driven, Option.toList_some, List.cons_append,
        List.nodup_cons] at hn ⊢
      have hp := hn.1
      by_cases hpid : p = id <;> grind
  | typeImport target => simp only [all, hold, driven, List.mem_append, hu]; grind
  | staticImport target member => simp only [all, hold, driven, List.mem_append, hu]; grind
  | type t => simp only [all, hold, driven, List.mem_append, hu]; grind
  | _ => simp [Content.fits, Content.construct?] at hc

theorem nodup_all_hold {u : CompilationUnit} {id : DeclId} {c : Content}
    (hc : c.fits .unitOwner = true) (hn : u.all.Nodup) (hid : id ∉ u.all) :
    (u.hold id c).all.Nodup := by
  rcases u with ⟨p, is, ss, ts⟩
  simp only [all, List.mem_append, not_or] at hid
  cases c with
  | package name =>
    have ht : (ss ++ is ++ ts).Nodup := by
      simp only [all, List.append_assoc] at hn ⊢
      exact (List.nodup_append.mp hn).2.1
    simp only [all, hold, Option.toList_some, List.cons_append, List.nodup_cons]
    exact ⟨by simp [hid], ht⟩
  | typeImport target =>
    simp only [all, hold, addUnique, hid.1.2, if_false] at hn ⊢
    grind
  | staticImport target member =>
    simp only [all, hold, addUnique, hid.1.1.2, if_false] at hn ⊢
    grind
  | type t =>
    simp only [all, hold, addUnique, hid.2, if_false] at hn ⊢
    grind
  | _ => simp [Content.fits, Content.construct?] at hc

theorem self_mem_collection_hold {u : CompilationUnit} {id : DeclId} {c : Content}
    (hc : c.fits .unitOwner = true) : id ∈ (u.hold id c).collection c := by
  cases c <;> simp_all [collection, hold, addUnique, Content.fits, Content.construct?] <;> grind

theorem mem_collection_hold {u : CompilationUnit} {id x : DeclId} {c c' : Content}
    (h : x ∈ u.collection c') (hx : u.driven id c ≠ some x) :
    x ∈ (u.hold id c).collection c' := by
  cases c <;> cases c' <;> simp_all [collection, hold, addUnique, driven] <;> grind

end CompilationUnit

namespace Forest

/-- A registration that nothing speaks against. -/
structure Admissible (f : Forest) (id : DeclId) (o : Owner) (x : Declaration)
    (kind : OwnerKind) : Prop where
  found : f.get? id = some x
  ownerKind : f.ownerKind o = .ok kind
  detached : x.owner = none
  fits : x.content.fits kind = true
  outside : f.ownerIsWithin id o = false
  legal : ∀ construct, x.content.construct? (some kind) = some construct →
    construct.allows x.content.modifiers = true

variable {f : Forest} {id d : DeclId} {u : UnitId} {o : Owner} {x : Declaration}
  {kind : OwnerKind}

theorem checkRegistration_eq_pending_iff :
    f.checkRegistration id o = .ok .pending ↔ ∃ x kind, f.Admissible id o x kind := by
  constructor
  · intro h
    simp only [checkRegistration] at h
    obtain ⟨x, hx, h⟩ := bind_eq_ok.mp h
    obtain ⟨kind, hk, h⟩ := bind_eq_ok.mp h
    cases ho : x.owner with
    | some current =>
      simp only [ho] at h
      split at h <;> simp at h
    | none =>
      simp only [ho] at h
      split at h
      · simp at h
      split at h
      · simp at h
      rename_i hf hw
      refine ⟨x, kind, declaration_eq_ok_iff.mp hx, hk, ho, by simpa using hf,
        by simpa using hw, ?_⟩
      intro construct hc
      simp only [hc] at h
      obtain ⟨_, hcheck, _⟩ := bind_eq_ok.mp h
      exact ConstructKind.check_eq_ok_iff.mp hcheck
  · rintro ⟨x, kind, h⟩
    simp only [checkRegistration]
    refine bind_eq_ok.mpr ⟨x, declaration_eq_ok_iff.mpr h.found, ?_⟩
    refine bind_eq_ok.mpr ⟨kind, h.ownerKind, ?_⟩
    simp only [h.detached, h.fits, h.outside, Bool.not_true, Bool.false_eq_true, if_false]
    cases hc : x.content.construct? (some kind) with
    | none => rfl
    | some construct =>
      exact bind_eq_ok.mpr ⟨(), ConstructKind.check_eq_ok_iff.mpr (h.legal construct hc), rfl⟩

theorem Admissible.owner?_eq_none (h : f.Admissible id o x kind) : f.owner? id = none := by
  simp [owner?, h.found, h.detached]

theorem Admissible.ne_type {t : DeclId} (h : f.Admissible id (.type t) x kind) : id ≠ t := by
  rintro rfl
  have hw := h.outside
  simp [ownerIsWithin, self_mem_ancestors] at hw

theorem get?_setOwner (f : Forest) (id d : DeclId) (o : Option Owner) :
    (f.setOwner id o).get? d =
      if d = id then (f.get? d).map fun x => { x with owner := o } else f.get? d := by
  simp [setOwner]

theorem owner?_setOwner (h : (f.get? id).isSome) (d : DeclId) (o : Option Owner) :
    (f.setOwner id o).owner? d = if d = id then o else f.owner? d := by
  unfold owner?
  rw [get?_setOwner]
  by_cases hd : d = id
  · subst hd
    obtain ⟨x, hx⟩ := Option.isSome_iff_exists.mp h
    simp [hx]
  · simp [hd]

theorem owner?_setOwner_none (f : Forest) (id d : DeclId) :
    (f.setOwner id none).owner? d = if d = id then none else f.owner? d := by
  unfold owner?
  rw [get?_setOwner]
  by_cases hd : d = id
  · cases h : f.get? d <;> simp [hd]
  · simp [hd]

@[simp] theorem held_setOwner (f : Forest) (id : DeclId) (o : Option Owner) (o' : Owner) :
    (f.setOwner id o).held o' = f.held o' := by
  cases o' with
  | unit u => rfl
  | type t =>
    rw [held_type, held_type, get?_setOwner]
    by_cases ht : t = id
    · cases f.get? t <;> simp [ht]
    · simp [ht]

@[simp] theorem lasting?_setOwner (f : Forest) (id d : DeclId) (o : Option Owner) :
    (f.setOwner id o).lasting? d = f.lasting? d := by
  unfold lasting? content?
  rw [get?_setOwner]
  by_cases hd : d = id
  · cases f.get? d <;> simp [hd]
  · simp [hd]

def replaced? (f : Forest) (id : DeclId) : Owner → Option DeclId
  | .type _ => none
  | .unit u => (f.get? id).bind fun x => f.replacedPackage? id u x.content

theorem replaced?_unit {unit : CompilationUnit} (hx : f.get? id = some x)
    (hu : f.unit? u = some unit) : f.replaced? id (.unit u) = unit.driven id x.content := by
  simp only [replaced?, hx, Option.bind_some]
  unfold replacedPackage? CompilationUnit.driven
  cases x.content <;> simp [hu]

theorem attach_unit (hx : f.get? id = some x) :
    f.attach id (.unit u) =
      match f.replaced? id (.unit u) with
      | some previous =>
        ((f.updateUnit u (·.hold id x.content)).setOwner id (some (.unit u))).setOwner previous none
      | none => (f.updateUnit u (·.hold id x.content)).setOwner id (some (.unit u)) := by
  cases hr : f.replacedPackage? id u x.content <;>
    simp [attach, attachToUnit, replaced?, hx, hr]

theorem isSome_get?_setOwner (f : Forest) (id d : DeclId) (o : Option Owner) :
    ((f.setOwner id o).get? d).isSome = (f.get? d).isSome := by
  rw [get?_setOwner]
  split <;> simp

/-- A declaration that is not there has no owner to write. -/
theorem setOwner_of_none (h : f.get? id = none) (o : Option Owner) : f.setOwner id o = f := by
  have hsame : f.decls.modify id.index (fun d => { d with owner := o }) = f.decls := by
    apply Array.ext_getElem?
    intro i
    rw [Array.getElem?_modify]
    by_cases hi : id.index = i
    · simp [← hi, show f.decls[id.index]? = none from h]
    · simp [hi]
  rw [setOwner, updateDecl, hsame]

theorem map_declaration_congr {g : Forest} (h : (g.get? id).isSome = (f.get? id).isSome) :
    (g.declaration id).map (fun _ => ()) = (f.declaration id).map fun _ => () := by
  unfold declaration
  cases hg : g.get? id <;> cases hf : f.get? id <;> simp_all [Except.map]

/-- Whether the detaching succeeds or not, no owner is written for the declaration afterwards. -/
theorem run_detach (f : Forest) (id : DeclId) :
    Edit.run (do
      let _ ← Edit.inspect (·.declaration id)
      Edit.change (·.setOwner id none)) f =
      ((f.declaration id).map fun _ => (), f.setOwner id none) := by
  rw [Edit.run_inspect_bind]
  unfold declaration
  cases h : f.get? id with
  | none => simp [setOwner_of_none h, Except.map]
  | some x => rfl

theorem run_recordOwner (hx : f.get? id = some x) (ho : x.owner = none) :
    (recordOwner id o).run f = (.ok (), f.setOwner id (some o)) := by
  unfold recordOwner
  rw [Edit.run_inspect_bind_of_ok (declaration_eq_ok_iff.mpr hx)]
  simp [ho]

section Attached

variable (h : f.Admissible id o x kind)

include h

theorem Admissible.exists_unit (ho : o = .unit u) :
    ∃ unit, f.unit? u = some unit ∧ x.content.fits .unitOwner = true := by
  subst ho
  obtain ⟨⟨unit, hu⟩, rfl⟩ := ownerKind_unit_eq_ok_iff.mp h.ownerKind
  exact ⟨unit, hu, h.fits⟩

theorem Admissible.replaced?_ne_self : f.replaced? id o ≠ some id := by
  cases ho : o with
  | type t => simp [replaced?]
  | unit u =>
    obtain ⟨unit, hu, -⟩ := h.exists_unit ho
    rw [replaced?_unit h.found hu]
    exact unit.driven_ne_self id x.content

theorem Admissible.owner?_attach (d : DeclId) :
    (f.attach id o).owner? d =
      if d = id then some o else if f.replaced? id o = some d then none else f.owner? d := by
  have hs : (f.get? id).isSome := by simp [h.found]
  have hne := h.replaced?_ne_self
  cases o with
  | type t => simp [attach, replaced?, owner?_updateType, owner?_setOwner hs]
  | unit u =>
    have hheld : ((f.updateUnit u (·.hold id x.content)).setOwner id (some (.unit u))).owner? d =
        if d = id then some (.unit u) else f.owner? d := owner?_setOwner hs d _
    rw [attach_unit h.found]
    cases hr : f.replaced? id (.unit u) with
    | none => simpa using hheld
    | some previous =>
      have hp : previous ≠ id := fun he => hne (hr.trans (congrArg some he))
      simp only [owner?_setOwner_none, hheld, Option.some.injEq]
      by_cases hd : d = previous
      · simp [hd, hp]
      · simp [hd, Ne.symm hd]

theorem Admissible.lasting?_attach (d : DeclId) :
    (f.attach id o).lasting? d = f.lasting? d := by
  cases o with
  | type t =>
    have hadd : (f.attach id (.type t)).lasting? d =
        (f.setOwner id (some (.type t))).lasting? d :=
      lasting?_updateType (fun t _ => ⟨t.kind_addMember id, t.name_addMember id⟩) d
    exact hadd.trans (lasting?_setOwner f id d _)
  | unit u =>
    rw [attach_unit h.found]
    cases f.replaced? id (.unit u) <;> simp <;> rfl

/-- Under a type a declaration is the last of the members. -/
theorem Admissible.held_attach_type {t : DeclId} (ho : o = .type t) (hn : id ∉ f.held o)
    (o' : Owner) : (f.attach id o).held o' = if o' = o then f.held o' ++ [id] else f.held o' := by
  subst ho
  obtain ⟨definition, ht, -⟩ := ownerKind_type_eq_ok_iff.mp h.ownerKind
  have ht' : (f.setOwner id (some (.type t))).type? t = some definition := by
    simpa [type?, get?_setOwner, Ne.symm h.ne_type] using ht
  have hm : id ∉ definition.members := fun hm => hn (mem_held_type_iff.mpr ⟨definition, ht, hm⟩)
  have hheld := held_addMember ht' hm o'
  rwa [held_setOwner] at hheld

theorem Admissible.unit?_attach (ho : o = .unit u) (v : UnitId) :
    (f.attach id o).unit? v =
      if v = u then (f.unit? v).map (·.hold id x.content) else f.unit? v := by
  subst ho
  rw [attach_unit h.found]
  cases f.replaced? id (.unit u) <;> exact unit?_updateUnit f u v _

theorem Admissible.held_attach_unit (ho : o = .unit u) (o' : Owner) :
    (f.attach id o).held o' =
      if o' = o then ((f.unit? u).map fun unit => (unit.hold id x.content).all).getD []
      else f.held o' := by
  cases o' with
  | unit v =>
    rw [held_unit, h.unit?_attach ho, ho]
    by_cases hv : v = u
    · simp [hv, Function.comp_def]
    · simp [hv, held_unit]
  | type t =>
    subst ho
    rw [attach_unit h.found]
    cases f.replaced? id (.unit u) <;> simp <;> rfl

theorem Admissible.mem_held_attach (hn : ∀ o, (f.held o).Nodup) (hid : ∀ o, id ∉ f.held o)
    (o' : Owner) :
    d ∈ (f.attach id o).held o' ↔
      (o' = o ∧ d = id) ∨ (d ∈ f.held o' ∧ (o' = o → f.replaced? id o ≠ some d)) := by
  cases ho : o with
  | type t =>
    rw [← ho, h.held_attach_type ho (hid o)]
    by_cases ho' : o' = o
    · simp [ho', ho, replaced?, or_comm]
    · simp [ho']
  | unit u =>
    obtain ⟨unit, hu, hf⟩ := h.exists_unit ho
    have hheld : f.held o = unit.all := ho ▸ held_unit_of_unit? hu
    rw [← ho, h.held_attach_unit ho]
    by_cases ho' : o' = o
    · have hnodup := hn o
      rw [hheld] at hnodup
      have hr : f.replaced? id o = unit.driven id x.content := by
        rw [ho]; exact replaced?_unit h.found hu
      simp [ho', hu, hheld, hr, CompilationUnit.mem_all_hold hf hnodup]
    · simp [ho']

theorem Admissible.nodup_held_attach (hn : ∀ o, (f.held o).Nodup) (hid : ∀ o, id ∉ f.held o)
    (o' : Owner) : ((f.attach id o).held o').Nodup := by
  cases ho : o with
  | type t =>
    rw [← ho, h.held_attach_type ho (hid o)]
    by_cases ho' : o' = o
    · simpa [ho', List.nodup_append] using ⟨hn o, fun a ha he => hid o (he ▸ ha)⟩
    · simpa [ho'] using hn o'
  | unit u =>
    obtain ⟨unit, hu, hf⟩ := h.exists_unit ho
    have hheld : f.held o = unit.all := ho ▸ held_unit_of_unit? hu
    rw [← ho, h.held_attach_unit ho]
    by_cases ho' : o' = o
    · have hnodup := hn o
      have hnot := hid o
      rw [hheld] at hnodup hnot
      simpa [ho', hu] using CompilationUnit.nodup_all_hold hf hnodup hnot
    · simpa [ho'] using hn o'

/-- A commit does what `attach` says; all that can stop it is that the package to be detached is
not there, and then there is nothing left to write. -/
theorem Admissible.run_commit :
    (commit id o).run f =
      (match f.replaced? id o with
        | some previous => (f.declaration previous).map fun _ => ()
        | none => .ok (),
       f.attach id o) := by
  cases o with
  | type t =>
    obtain ⟨definition, ht, -⟩ := ownerKind_type_eq_ok_iff.mp h.ownerKind
    have ht' : (f.setOwner id (some (.type t))).type? t = some definition := by
      simpa [type?, get?_setOwner, Ne.symm h.ne_type] using ht
    unfold commit
    rw [Edit.run_bind_of_ok (run_recordOwner h.found h.detached),
      Edit.run_inspect_bind_of_ok (typeDefinition_eq_ok_iff.mpr ht')]
    rfl
  | unit u =>
    obtain ⟨unit, hu, -⟩ := h.exists_unit rfl
    have hx : (f.updateUnit u (·.hold id x.content)).get? id = some x := by simpa using h.found
    unfold commit
    rw [Edit.run_inspect_bind_of_ok (declaration_eq_ok_iff.mpr h.found),
      Edit.run_inspect_bind_of_ok (unit_eq_ok_iff.mpr hu), Edit.run_get_bind,
      Edit.run_change_bind, Edit.run_bind_of_ok (run_recordOwner hx h.detached),
      attach_unit h.found]
    have hr : f.replaced? id (.unit u) = f.replacedPackage? id u x.content := by
      simp [replaced?, h.found]
    rw [hr]
    cases f.replacedPackage? id u x.content with
    | none => rfl
    | some previous =>
      have hknown : (((f.updateUnit u (·.hold id x.content)).setOwner id
          (some (.unit u))).get? previous).isSome = (f.get? previous).isSome :=
        isSome_get?_setOwner _ id previous _
      rw [run_detach, map_declaration_congr hknown]

/-- A unit puts a declaration into the collection for its content. -/
theorem Admissible.self_mem_collection_attach (ho : o = .unit u) :
    id ∈ (f.attach id o).collection u x.content := by
  obtain ⟨unit, hu, hf⟩ := h.exists_unit ho
  refine mem_collection_iff.mpr ⟨unit.hold id x.content, ?_, ?_⟩
  · simp [h.unit?_attach ho, hu]
  · exact CompilationUnit.self_mem_collection_hold hf

theorem Admissible.mem_collection_attach {c : Content} (hd : d ∈ f.collection u c)
    (hr : o = .unit u → f.replaced? id o ≠ some d) :
    d ∈ (f.attach id o).collection u c := by
  obtain ⟨unit, hu, hm⟩ := mem_collection_iff.mp hd
  cases ho : o with
  | type t => exact mem_collection_iff.mpr ⟨unit, hu, hm⟩
  | unit v =>
    rw [← ho]
    apply mem_collection_iff.mpr
    rw [h.unit?_attach ho]
    by_cases huv : u = v
    · subst huv
      have hr := hr ho
      rw [ho, replaced?_unit h.found hu] at hr
      exact ⟨_, by simp [hu], CompilationUnit.mem_collection_hold hm hr⟩
    · exact ⟨unit, by simp [huv, hu], hm⟩

end Attached

@[simp] theorem size_decls_updateDecl (f : Forest) (id : DeclId)
    (change : Declaration → Declaration) : (f.updateDecl id change).decls.size = f.decls.size := by
  simp [updateDecl]

theorem size_decls_attach_type (f : Forest) (id t : DeclId) :
    (f.attach id (.type t)).decls.size = f.decls.size := by
  simp [attach, updateType, setOwner]

theorem get?_attach_type_of_ne {t : DeclId} (hd : d ≠ id) (ht : d ≠ t) :
    (f.attach id (.type t)).get? d = f.get? d := by
  simp [attach, updateType, get?_setOwner, hd, ht]

/-- What may become a member of a type still may after another declaration became one. -/
theorem Admissible.after_attach {a b t : DeclId} {y : Declaration} {kind' : OwnerKind}
    (ha : f.Admissible a (.type t) x kind) (hb : f.Admissible b (.type t) y kind')
    (hab : a ≠ b) : (f.attach a (.type t)).Admissible b (.type t) y kind' := by
  obtain ⟨definition, ht, hk⟩ := ownerKind_type_eq_ok_iff.mp hb.ownerKind
  obtain ⟨o, comments, hx⟩ := type?_eq_some_iff.mp ht
  refine ⟨?_, ?_, hb.detached, hb.fits, ?_, hb.legal⟩
  · rw [get?_attach_type_of_ne hab.symm hb.ne_type, hb.found]
  · refine ownerKind_type_eq_ok_iff.mpr ⟨definition.addMember a, ?_, by simpa using hk⟩
    refine type?_eq_some_iff.mpr ⟨o, comments, ?_⟩
    simp [attach, updateType, get?_setOwner, Ne.symm ha.ne_type, hx]
  · have hw := hb.outside
    have houtside := ha.outside
    simp only [ownerIsWithin, decide_eq_false_iff_not] at hw houtside ⊢
    unfold ancestors at hw houtside ⊢
    rw [size_decls_attach_type, ancestorsWithin_congr]
    · exact hw
    · intro z hz
      have hza : z ≠ a := fun he => houtside (he ▸ hz)
      rw [ha.owner?_attach z]
      simp [hza, replaced?]

end Forest

end DeclForest
