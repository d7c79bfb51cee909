import DeclForest.Proofs.Refusal

/-!
What makes a declaration well formed under an owner of a kind, or without an owner: its modifiers
are inside one mask, and a type extends and implements only what it may. The mask of a declaration
without an owner contains every other mask of its kind, so that what is legal under an owner is
legal to declare once more; and each builder leaves a declaration legal without an owner.
-/

namespace DeclForest

theorem Modifiers.sdiff_isEmpty_iff {a b : Modifiers} :
    (a.sdiff b).isEmpty = true ↔ ∀ i, a.bits.getLsbD i = true → b.bits.getLsbD i = true := by
  simp only [isEmpty, sdiff, beq_iff_eq]
  constructor
  · intro h i ha
    have hi : (a.bits &&& ~~~b.bits).getLsbD i = false := by simp [h]
    have hlt : i < 16 := BitVec.lt_of_getLsbD ha
    simpa [ha, hlt] using hi
  · intro h
    apply BitVec.eq_of_getLsbD_eq
    intro i hi
    cases ha : a.bits.getLsbD i with
    | false => simp [ha]
    | true => simp [ha, h i ha]

theorem Modifiers.visibilityCount_le_one_iff {m : Modifiers} :
    m.visibilityCount ≤ 1 ↔ ∀ v ∈ visibilityFlags, ∀ w ∈ visibilityFlags,
      m.contains v = true → m.contains w = true → v = w := by
  cases hp : m.contains .publicAccess <;> cases hq : m.contains .privateAccess <;>
    cases hr : m.contains .protectedAccess <;> simp [visibilityCount, visibilityFlags, hp, hq, hr]

namespace ConstructKind

/-- Every bit is inside the mask and at most one visibility is set. -/
structure Permits (k : ConstructKind) (m : Modifiers) : Prop where
  inside : ∀ i, m.bits.getLsbD i = true → k.legal.bits.getLsbD i = true
  visibility : ∀ v ∈ Modifiers.visibilityFlags, ∀ w ∈ Modifiers.visibilityFlags,
    m.contains v = true → m.contains w = true → v = w

theorem allows_iff_permits {k : ConstructKind} {m : Modifiers} :
    k.allows m = true ↔ k.Permits m := by
  simp only [allows, Bool.and_eq_true, decide_eq_true_eq, Modifiers.sdiff_isEmpty_iff,
    Modifiers.visibilityCount_le_one_iff]
  exact ⟨fun ⟨hi, hv⟩ => ⟨hi, hv⟩, fun ⟨hi, hv⟩ => ⟨hi, hv⟩⟩

theorem permits_of_check {k : ConstructKind} {m : Modifiers} (h : k.check m = .ok ()) :
    k.Permits m := allows_iff_permits.mp (check_eq_ok_iff.mp h)

theorem permits_empty (k : ConstructKind) : k.Permits .empty := by
  apply allows_iff_permits.mp
  cases k <;> decide

def Within (k k' : ConstructKind) : Prop := (k.legal.sdiff k'.legal).isEmpty = true

instance (k k' : ConstructKind) : Decidable (k.Within k') :=
  inferInstanceAs (Decidable (_ = true))

theorem Permits.mono {k k' : ConstructKind} {m : Modifiers} (h : k.Permits m) (hk : k.Within k') :
    k'.Permits m :=
  ⟨fun i hi => Modifiers.sdiff_isEmpty_iff.mp hk i (h.inside i hi), h.visibility⟩

end ConstructKind

theorem TypeKind.construct_within_inClass (kind : TypeKind) (p : Placement) :
    (kind.construct p).Within (kind.construct .inClass) := by
  cases kind <;> cases p <;> decide

namespace Content

inductive LegalIn (c : Content) (place : Option OwnerKind) : Prop where
  | masked {construct : ConstructKind} : c.construct? place = some construct →
      construct.Permits c.modifiers → LegalIn c place
  | plain : c.IsUnitLevel → c.modifiers = .empty → LegalIn c place

variable {c : Content} {place : Option OwnerKind} {construct : ConstructKind}

theorem isUnitLevel_iff : c.IsUnitLevel ↔ (∃ name, c = .package name) ∨
    (∃ target, c = .typeImport target) ∨ ∃ target member, c = .staticImport target member := by
  cases c <;> simp [IsUnitLevel, fits, construct?]

theorem IsUnitLevel.legalIn (h : c.IsUnitLevel) : c.LegalIn place := by
  refine .plain h ?_
  rcases isUnitLevel_iff.mp h with ⟨_, rfl⟩ | ⟨_, rfl⟩ | ⟨_, _, rfl⟩ <;> rfl

theorem IsUnitLevel.setModifiers (h : c.IsUnitLevel) (m : Modifiers) : c.setModifiers m = c := by
  rcases isUnitLevel_iff.mp h with ⟨_, rfl⟩ | ⟨_, rfl⟩ | ⟨_, _, rfl⟩ <;> rfl

/-- No place asks for less than the place of a declaration without an owner. -/
theorem exists_construct?_none (h : c.construct? place = some construct) :
    ∃ detached, c.construct? none = some detached ∧ construct.Within detached := by
  cases c with
  | type t =>
    have hplace : ∃ p, t.kind.construct p = construct := by
      rcases place with _ | _ | _ | _ <;> exact ⟨_, Option.some.inj h⟩
    obtain ⟨p, rfl⟩ := hplace
    exact ⟨_, rfl, t.kind.construct_within_inClass p⟩
  | _ =>
    rcases place with _ | _ | _ | _ <;> simp [construct?] at h <;>
      exact ⟨_, rfl, h ▸ by decide⟩

theorem LegalIn.detached (h : c.LegalIn place) : c.LegalIn none := by
  cases h with
  | masked hc hm =>
    obtain ⟨construct, hd, hw⟩ := exists_construct?_none hc
    exact .masked hd (hm.mono hw)
  | plain hu hm => exact .plain hu hm

/-- What an owner holds has a mask there, except for what only units hold. -/
theorem legalIn_of_fits {kind : OwnerKind} (hfit : c.fits kind = true)
    (h : ∀ construct, c.construct? (some kind) = some construct →
      construct.allows c.modifiers = true) : c.LegalIn (some kind) := by
  cases hc : c.construct? (some kind) with
  | some construct => exact .masked hc (ConstructKind.allows_iff_permits.mp (h construct hc))
  | none =>
    have hu : c.IsUnitLevel := by
      cases c <;> simp_all [fits, IsUnitLevel]
    exact hu.legalIn

theorem LegalIn.permits (h : c.LegalIn place) (hc : c.construct? place = some construct) :
    construct.Permits c.modifiers := by
  cases h with
  | masked hc' hm =>
    obtain rfl := Option.some.inj (hc.symm.trans hc')
    exact hm
  | plain _ hm =>
    rw [hm]
    exact construct.permits_empty

/-- Only the kind and the modifiers of a type count. -/
theorem LegalIn.of_type {t t' : TypeDefinition} (h : (type t).LegalIn place)
    (hk : t'.kind = t.kind) (hm : t'.modifiers = t.modifiers) : (type t').LegalIn place := by
  have hsome : ∃ construct, (type t).construct? place = some construct := by
    rcases place with _ | _ | _ | _ <;> exact ⟨_, rfl⟩
  obtain ⟨construct, hc⟩ := hsome
  have hc' : (type t').construct? place = some construct := by
    rw [← hc]
    rcases place with _ | _ | _ | _ <;> simp [construct?, hk]
  refine .masked hc' ?_
  show construct.Permits t'.modifiers
  rw [hm]
  exact h.permits hc

theorem construct?_setModifiers (m : Modifiers) :
    (c.setModifiers m).construct? place = c.construct? place := by
  cases c <;> rcases place with _ | _ | _ | _ <;> rfl

theorem modifiers_setModifiers (m : Modifiers) :
    (c.setModifiers m).modifiers = m ∨ c.setModifiers m = c := by
  cases c <;> simp [setModifiers, modifiers]

theorem LegalIn.setModifiers {m : Modifiers} (h : c.LegalIn place)
    (hm : ∀ construct, c.construct? place = some construct → construct.check m = .ok ()) :
    (c.setModifiers m).LegalIn place := by
  rcases c.modifiers_setModifiers m with hset | hsame
  · cases h with
    | masked hc _ =>
      refine .masked ((c.construct?_setModifiers m).trans hc) ?_
      rw [hset]
      exact ConstructKind.permits_of_check (hm _ hc)
    | plain hu _ =>
      rw [hu.setModifiers m]
      exact hu.legalIn
  · rw [hsame]
    exact h

end Content

/-- What a type extends and implements: only classes extend, and only plain classes are extended;
no type is implemented twice. -/
structure TypeDefinition.SoundHeritage (t : TypeDefinition) : Prop where
  superclass : ∀ super, t.superclass = some super → t.kind = .classKind ∧ super.isClass = true
  superInterfaces : (t.superInterfaces.map Descriptor.key).Nodup

namespace TypeDefinition

variable {t t' : TypeDefinition}

theorem SoundHeritage.congr (h : t.SoundHeritage) (hk : t'.kind = t.kind)
    (hs : t'.superclass = t.superclass) (hi : t'.superInterfaces = t.superInterfaces) :
    t'.SoundHeritage :=
  ⟨fun super he => hk ▸ h.superclass super (hs ▸ he), hi ▸ h.superInterfaces⟩

theorem soundHeritage_ofName (kind : TypeKind) (name : String) :
    (ofName kind name).SoundHeritage := ⟨by simp [ofName], List.nodup_nil⟩

theorem extending_eq_ok_iff {super : Descriptor} :
    t.extending super = .ok t' ↔
      t.kind = .classKind ∧ super.isClass = true ∧ t' = { t with superclass := some super } := by
  unfold extending
  by_cases hk : t.kind = .classKind <;> by_cases hs : super.isClass = true <;>
    simp [hk, hs, eq_comm]

theorem SoundHeritage.extending {super : Descriptor} (h : t.SoundHeritage)
    (he : t.extending super = .ok t') : t'.SoundHeritage := by
  obtain ⟨hk, hs, rfl⟩ := extending_eq_ok_iff.mp he
  refine ⟨fun s hsuper => ?_, h.superInterfaces⟩
  obtain rfl : super = s := Option.some.inj hsuper
  exact ⟨hk, hs⟩

theorem lists_iff {face : Descriptor} :
    t.lists face = true ↔ face.key ∈ t.superInterfaces.map Descriptor.key := by
  simp [lists, Descriptor.sameType]

theorem kind_implementing (t : TypeDefinition) (face : Descriptor) :
    (t.implementing face).kind = t.kind := by
  unfold implementing
  split <;> rfl

theorem modifiers_implementing (t : TypeDefinition) (face : Descriptor) :
    (t.implementing face).modifiers = t.modifiers := by
  unfold implementing
  split <;> rfl

theorem SoundHeritage.implementing (h : t.SoundHeritage) (face : Descriptor) :
    (t.implementing face).SoundHeritage := by
  unfold TypeDefinition.implementing
  split
  · exact h
  · rename_i hl
    rw [lists_iff] at hl
    refine ⟨h.superclass, ?_⟩
    rw [List.map_append, List.map_singleton]
    exact List.nodup_append.mpr ⟨h.superInterfaces, List.nodup_singleton _, by grind⟩

end TypeDefinition

structure Content.WellFormedIn (c : Content) (place : Option OwnerKind) : Prop where
  legal : c.LegalIn place
  heritage : ∀ t, c.type? = some t → t.SoundHeritage

namespace Content

variable {c c' : Content} {place : Option OwnerKind}

theorem IsUnitLevel.wellFormedIn (h : c.IsUnitLevel) : c.WellFormedIn place := by
  refine ⟨h.legalIn, fun t ht => ?_⟩
  rcases isUnitLevel_iff.mp h with ⟨_, rfl⟩ | ⟨_, rfl⟩ | ⟨_, _, rfl⟩ <;> simp [type?] at ht

theorem WellFormedIn.detached (h : c.WellFormedIn place) : c.WellFormedIn none :=
  ⟨h.legal.detached, h.heritage⟩

theorem WellFormedIn.of_type {t t' : TypeDefinition} (h : (type t).WellFormedIn place)
    (hk : t'.kind = t.kind) (hm : t'.modifiers = t.modifiers) (hs : t'.SoundHeritage) :
    (type t').WellFormedIn place :=
  ⟨h.legal.of_type hk hm, fun _ ht => Option.some.inj ht ▸ hs⟩

theorem WellFormedIn.fresh (h : c.WellFormedIn place) : c.fresh.WellFormedIn place := by
  cases c with
  | type t => exact h.of_type rfl rfl ((h.heritage t rfl).congr rfl rfl rfl)
  | _ => exact h

theorem WellFormedIn.setModifiers {m : Modifiers} (h : c.WellFormedIn place)
    (hm : ∀ construct, c.construct? place = some construct → construct.check m = .ok ()) :
    (c.setModifiers m).WellFormedIn place := by
  refine ⟨h.legal.setModifiers hm, fun t' ht' => ?_⟩
  cases c with
  | type t =>
    obtain rfl := Option.some.inj ht'
    exact (h.heritage t rfl).congr rfl rfl rfl
  | _ => simp [Content.setModifiers, type?] at ht'

inductive Blank : Content → Prop where
  | field {x : Field} : x.modifiers = .empty → Blank (field x)
  | method {x : Method} : x.modifiers = .empty → Blank (method x)
  | constructor {x : Constructor} : x.modifiers = .empty → Blank (constructor x)
  | initializer (body : List String) : Blank (initializer body)
  | staticInitializer (body : List String) : Blank (staticInitializer body)
  | type (kind : TypeKind) (name : String) : Blank (type (.ofName kind name))
  | package (name : String) : Blank (package name)
  | importing {target : Descriptor} {c : Content} : importing target = .ok c → Blank c
  | importingStatic {target : Descriptor} {member : String} {c : Content} :
      importingStatic target member = .ok c → Blank c

/-- What one more call to a builder makes of a content. The parts that are not checked are free. -/
inductive Refines : Content → Content → Prop where
  | field {x y : Field} : y.modifiers = x.modifiers → Refines (field x) (field y)
  | fieldModifiers {x y : Field} {m : Modifiers} : x.withModifiers m = .ok y →
      Refines (field x) (field y)
  | method {x y : Method} : y.modifiers = x.modifiers → Refines (method x) (method y)
  | methodModifiers {x y : Method} {m : Modifiers} : x.withModifiers m = .ok y →
      Refines (method x) (method y)
  | constructor {x y : Constructor} : y.modifiers = x.modifiers →
      Refines (constructor x) (constructor y)
  | constructorModifiers {x y : Constructor} {m : Modifiers} : x.withModifiers m = .ok y →
      Refines (constructor x) (constructor y)
  | typeModifiers {t t' : TypeDefinition} {m : Modifiers} : t.withModifiers m = .ok t' →
      Refines (type t) (type t')
  | extending {t t' : TypeDefinition} {super : Descriptor} : t.extending super = .ok t' →
      Refines (type t) (type t')
  | implementing (t : TypeDefinition) (face : Descriptor) :
      Refines (type t) (type (t.implementing face))

theorem wellFormedIn_of_permits {construct : ConstructKind} {m : Modifiers} (ht : c.type? = none)
    (hc : c.construct? place = some construct) (hm : c.modifiers = m) (hp : construct.Permits m) :
    c.WellFormedIn place := ⟨.masked hc (hm ▸ hp), by simp [ht]⟩

theorem Blank.wellFormedIn (h : c.Blank) : c.WellFormedIn none := by
  cases h with
  | field hm => exact wellFormedIn_of_permits rfl rfl hm (ConstructKind.permits_empty _)
  | method hm => exact wellFormedIn_of_permits rfl rfl hm (ConstructKind.permits_empty _)
  | constructor hm => exact wellFormedIn_of_permits rfl rfl hm (ConstructKind.permits_empty _)
  | initializer => exact wellFormedIn_of_permits rfl rfl rfl (ConstructKind.permits_empty _)
  | staticInitializer =>
    have hp : ConstructKind.staticInitializer.Permits (.ofFlag .static) :=
      ConstructKind.allows_iff_permits.mp (by decide)
    exact wellFormedIn_of_permits rfl rfl rfl hp
  | type kind name =>
    exact ⟨.masked rfl (ConstructKind.permits_empty _),
      fun _ ht => Option.some.inj ht ▸ TypeDefinition.soundHeritage_ofName kind name⟩
  | package name => exact (isUnitLevel_package name).wellFormedIn
  | importing h => exact (isUnitLevel_of_importing h).wellFormedIn
  | importingStatic h => exact (isUnitLevel_of_importingStatic h).wellFormedIn

theorem check_of_map_eq_ok {α : Type} {construct : ConstructKind} {m : Modifiers} {make : Unit → α}
    {made : α} (h : (construct.check m).map make = .ok made) :
    construct.Permits m ∧ make () = made := by
  obtain ⟨_, hc, he⟩ := map_eq_ok.mp h
  exact ⟨ConstructKind.permits_of_check hc, he⟩

theorem Refines.wellFormedIn (hr : c.Refines c') (h : c.WellFormedIn none) :
    c'.WellFormedIn none := by
  cases hr with
  | field hm => exact wellFormedIn_of_permits rfl rfl hm (h.legal.permits rfl)
  | method hm => exact wellFormedIn_of_permits rfl rfl hm (h.legal.permits rfl)
  | constructor hm => exact wellFormedIn_of_permits rfl rfl hm (h.legal.permits rfl)
  | fieldModifiers hm =>
    obtain ⟨hp, rfl⟩ := check_of_map_eq_ok hm
    exact wellFormedIn_of_permits rfl rfl rfl hp
  | methodModifiers hm =>
    obtain ⟨hp, rfl⟩ := check_of_map_eq_ok hm
    exact wellFormedIn_of_permits rfl rfl rfl hp
  | constructorModifiers hm =>
    obtain ⟨hp, rfl⟩ := check_of_map_eq_ok hm
    exact wellFormedIn_of_permits rfl rfl rfl hp
  | typeModifiers hm =>
    obtain ⟨hp, rfl⟩ := check_of_map_eq_ok hm
    refine ⟨.masked rfl hp, fun t ht => ?_⟩
    obtain rfl := Option.some.inj ht
    exact (h.heritage _ rfl).congr rfl rfl rfl
  | extending he =>
    obtain ⟨-, -, rfl⟩ := TypeDefinition.extending_eq_ok_iff.mp he
    exact h.of_type rfl rfl ((h.heritage _ rfl).extending he)
  | implementing t face =>
    exact h.of_type (t.kind_implementing face) (t.modifiers_implementing face)
      ((h.heritage _ rfl).implementing face)

end Content

end DeclForest
