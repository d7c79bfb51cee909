import DeclForest.Proofs.Invariant

/-!
Ownership read from both sides. In every reachable forest the owner recorded with a declaration and
the collections of types and units say the same, each collection lists a declaration once, and each
holds the kinds of declarations it is for.
-/

namespace DeclForest

def Content.mayStandIn : TypeKind → Content → Bool
  | .interfaceKind, .field _ | .interfaceKind, .method _ | .interfaceKind, .type _ => true
  | .interfaceKind, _ => false
  | .classKind, .package _ | .classKind, .typeImport _ | .classKind, .staticImport .. => false
  | .classKind, _ => true

theorem Content.fits_owner (kind : TypeKind) (c : Content) :
    c.fits kind.owner = c.mayStandIn kind := by
  cases kind <;> cases c <;> rfl

namespace Forest

variable {f : Forest} {d : DeclId}

/-- The record of the owner and the collections of the owners agree, and nothing is held twice. -/
structure TwoWay (f : Forest) : Prop where
  type_owner : ∀ d t, f.owner? d = some (.type t) ↔
    ∃ definition, f.type? t = some definition ∧ d ∈ definition.members
  /-- A unit holds a declaration in the one collection for its content. -/
  unit_owner : ∀ d u, f.owner? d = some (.unit u) ↔
    ∃ unit c, f.unit? u = some unit ∧ f.content? d = some c ∧ d ∈ unit.collection c
  detached : ∀ d, f.owner? d = none →
    (∀ t definition, f.type? t = some definition → d ∉ definition.members) ∧
    ∀ u unit, f.unit? u = some unit →
      unit.package ≠ some d ∧ d ∉ unit.imports ∧ d ∉ unit.staticImports ∧ d ∉ unit.types
  package_slot : ∀ u unit d, f.unit? u = some unit → unit.package = some d →
    ∃ name, f.content? d = some (.package name)
  import_slot : ∀ u unit d, f.unit? u = some unit → d ∈ unit.imports →
    ∃ target, f.content? d = some (.typeImport target)
  static_import_slot : ∀ u unit d, f.unit? u = some unit → d ∈ unit.staticImports →
    ∃ target member, f.content? d = some (.staticImport target member)
  type_slot : ∀ u unit d, f.unit? u = some unit → d ∈ unit.types →
    ∃ t, f.content? d = some (.type t)
  members_nodup : ∀ t definition, f.type? t = some definition → definition.members.Nodup
  unit_nodup : ∀ u unit, f.unit? u = some unit →
    unit.imports.Nodup ∧ unit.staticImports.Nodup ∧ unit.types.Nodup
  /-- A unit lists each declaration that it owns once, and no other. -/
  listing : ∀ u unit, f.unit? u = some unit → ∃ ids, f.allMembers u = .ok ids ∧ ids.Nodup ∧
    ∀ d, d ∈ ids ↔ f.owner? d = some (.unit u)
  member_kinds : ∀ t definition d, f.type? t = some definition → d ∈ definition.members →
    ∃ c, f.content? d = some c ∧ c.mayStandIn definition.kind = true

theorem allMembers_eq {u : UnitId} {unit : CompilationUnit} (hu : f.unit? u = some unit) :
    f.allMembers u = .ok unit.all := by
  unfold allMembers
  rw [unit_eq_ok_iff.mpr hu]
  rfl

namespace Invariant

variable (hf : f.Invariant)

include hf

theorem owner?_type_iff {t : DeclId} : f.owner? d = some (.type t) ↔
    ∃ definition, f.type? t = some definition ∧ d ∈ definition.members :=
  (hf.owned d (.type t)).trans mem_held_type_iff

theorem owner?_unit_iff {u : UnitId} : f.owner? d = some (.unit u) ↔
    ∃ unit c, f.unit? u = some unit ∧ f.content? d = some c ∧ d ∈ unit.collection c := by
  rw [hf.owned]
  constructor
  · intro hd
    obtain ⟨c, hc, hm⟩ := hf.sorted u d hd
    obtain ⟨x, hx, rfl⟩ := exists_get?_of_lasting? hc
    obtain ⟨unit, hu, hm⟩ := mem_collection_iff.mp hm
    rw [CompilationUnit.collection_lasting] at hm
    exact ⟨unit, x.content, hu, content?_of_get? hx, hm⟩
  · rintro ⟨unit, c, hu, -, hm⟩
    exact mem_held_unit_iff.mpr ⟨unit, hu, CompilationUnit.mem_all_of_collection hm⟩

theorem not_mem_of_detached (hd : f.owner? d = none) {u : UnitId} {unit : CompilationUnit}
    (hu : f.unit? u = some unit) :
    unit.package ≠ some d ∧ d ∉ unit.imports ∧ d ∉ unit.staticImports ∧ d ∉ unit.types := by
  have hn := hf.not_mem_held hd (.unit u)
  rw [held_unit_of_unit? hu] at hn
  simp only [CompilationUnit.all, List.mem_append, Option.mem_toList, not_or] at hn
  exact ⟨hn.1.1.1, hn.1.2, hn.1.1.2, hn.2⟩

theorem unit_nodup {u : UnitId} {unit : CompilationUnit} (hu : f.unit? u = some unit) :
    unit.imports.Nodup ∧ unit.staticImports.Nodup ∧ unit.types.Nodup := by
  have hn := hf.nodup (.unit u)
  rw [held_unit_of_unit? hu] at hn
  simp only [CompilationUnit.all, List.nodup_append] at hn
  exact ⟨hn.1.2.1, hn.1.1.2.1, hn.2.1⟩

theorem mayStandIn_of_mem {t : DeclId} {definition : TypeDefinition}
    (ht : f.type? t = some definition) (hd : d ∈ definition.members) :
    ∃ c, f.content? d = some c ∧ c.mayStandIn definition.kind = true := by
  have ho : f.OwnedBy d t := hf.owner?_type_iff.mpr ⟨definition, ht, hd⟩
  obtain ⟨c, hc⟩ := exists_lasting?_of_owner? ho
  obtain ⟨kind, name, hl, hfit⟩ := hf.admitted d t c ho hc
  obtain ⟨x, hx, rfl⟩ := exists_get?_of_lasting? hc
  obtain ⟨definition', ht', rfl, -⟩ := lasting?_eq_type_iff.mp hl
  obtain rfl : definition = definition' := Option.some.inj (ht.symm.trans ht')
  refine ⟨x.content, content?_of_get? hx, ?_⟩
  rw [← Content.fits_owner]
  simpa using hfit

end Invariant

theorem reachable_two_way (h : f.Reachable) : f.TwoWay := by
  have hf := reachable_invariant h
  constructor
  · exact fun d t => hf.owner?_type_iff
  · exact fun d u => hf.owner?_unit_iff
  · intro d hd
    refine ⟨fun t definition ht hm => ?_, fun u unit hu => hf.not_mem_of_detached hd hu⟩
    exact hf.not_mem_held hd (.type t) (mem_held_type_iff.mpr ⟨definition, ht, hm⟩)
  · exact fun u unit d hu => (hf.content_of_mem_unit hu).1
  · exact fun u unit d hu => (hf.content_of_mem_unit hu).2.1
  · exact fun u unit d hu => (hf.content_of_mem_unit hu).2.2.1
  · exact fun u unit d hu => (hf.content_of_mem_unit hu).2.2.2
  · intro t definition ht
    have hn := hf.nodup (.type t)
    rwa [held_type_of_type? ht] at hn
  · exact fun u unit hu => hf.unit_nodup hu
  · intro u unit hu
    have hn := hf.nodup (.unit u)
    rw [held_unit_of_unit? hu] at hn
    refine ⟨unit.all, allMembers_eq hu, hn, fun d => ?_⟩
    rw [hf.owned, held_unit_of_unit? hu]
  · exact fun t definition d ht hd => hf.mayStandIn_of_mem ht hd

/-- The second package of the sample has driven out the first, which is in no collection now. -/
theorem sample_two_way : sample.Reachable ∧ sample.TwoWay ∧
    sample.owner? ⟨0⟩ = none ∧ sample.owner? ⟨1⟩ = some (.unit ⟨0⟩) :=
  ⟨sample_reachable, reachable_two_way sample_reachable, by decide +kernel, by decide +kernel⟩

end Forest

end DeclForest
