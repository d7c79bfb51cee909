import DeclForest.Proofs.Invariant

/-!
The ways up and down in a reachable forest. The walk from a declaration through its owners ends by
itself at a declaration that no type owns, never meets one twice, and the bound of `ancestors` is
never what ends it. What is computed from it, the cycle check of registrations included, is what the
owner links say.

Members stand one level below their type, and the declarations below a type are those below its
members and the type itself; on one level no two of them are above the same declaration, so the
trees of different members share nothing.
-/

namespace DeclForest.Forest

variable {f : Forest} {d t : DeclId}

theorem length_ancestors (f : Forest) (d : DeclId) :
    (f.ancestors d).length = f.nestingLevel d + 1 := by
  have := List.length_pos_of_mem (f.self_mem_ancestors d)
  unfold nestingLevel
  omega

namespace Invariant

variable (hf : f.Invariant)

include hf

theorem mem_ancestors_iff {x : DeclId} :
    x ∈ f.ancestors d ↔ Relation.ReflTransGen f.OwnedBy d x :=
  (hf.chain_ancestors d).mem_iff

theorem ancestors_of_ownedBy (ho : f.OwnedBy d t) : f.ancestors d = d :: f.ancestors t :=
  (hf.chain_ancestors d).unique (.up ho (hf.chain_ancestors t))

theorem ancestors_of_not_ownedBy (hn : ∀ t, ¬ f.OwnedBy d t) : f.ancestors d = [d] :=
  (hf.chain_ancestors d).unique (.last hn)

theorem length_ancestors_le (hd : (f.get? d).isSome) :
    (f.ancestors d).length ≤ f.decls.size :=
  (hf.chain_ancestors d).length_le_size (fun _ _ => hf.isSome_of_ownedBy) hd

theorem nestingLevel_lt (hd : (f.get? d).isSome) : f.nestingLevel d < f.decls.size := by
  have := hf.length_ancestors_le hd
  rw [length_ancestors] at this
  omega

theorem nestingLevel_le (d : DeclId) : f.nestingLevel d ≤ f.decls.size := by
  have hlen := (hf.chain_ancestors d).length_le fun _ _ => hf.isSome_of_ownedBy
  unfold nestingLevel
  omega

theorem nestingLevel_of_ownedBy (ho : f.OwnedBy d t) :
    f.nestingLevel d = f.nestingLevel t + 1 := by
  have hd := length_ancestors f d
  have ht := length_ancestors f t
  rw [hf.ancestors_of_ownedBy ho, List.length_cons] at hd
  omega

theorem nestingLevel_of_not_ownedBy (hn : ∀ t, ¬ f.OwnedBy d t) : f.nestingLevel d = 0 := by
  simp [nestingLevel, hf.ancestors_of_not_ownedBy hn]

theorem exists_type?_of_mem_tail (ht : t ∈ (f.ancestors d).tail) :
    ∃ definition, f.type? t = some definition := by
  obtain ⟨x, ho⟩ := (hf.chain_ancestors d).exists_owner_of_mem_tail ht
  exact hf.exists_type?_of_ownedBy ho

theorem exists_type?_of_mem_ancestors {definition : TypeDefinition}
    (hd : f.type? d = some definition) (ht : t ∈ f.ancestors d) :
    ∃ definition, f.type? t = some definition := by
  rcases Relation.ReflTransGen.cases_tail (hf.mem_ancestors_iff.mp ht) with rfl | ⟨x, -, ho⟩
  · exact ⟨definition, hd⟩
  · exact hf.exists_type?_of_ownedBy ho

/-- The unit of a declaration is the one that owns the end of its chain. -/
theorem enclosingUnit?_eq_some_iff {u : UnitId} :
    f.enclosingUnit? d = some u ↔
      ∃ top, Relation.ReflTransGen f.OwnedBy d top ∧ f.owner? top = some (.unit u) := by
  obtain ⟨top, hlast, hn⟩ := (hf.chain_ancestors d).exists_getLast?
  have htop : Relation.ReflTransGen f.OwnedBy d top :=
    hf.mem_ancestors_iff.mp (List.mem_of_getLast? hlast)
  have hunit : f.enclosingUnit? d = some u ↔ f.owner? top = some (.unit u) := by
    unfold enclosingUnit?
    rw [hlast, Option.bind_some]
    split <;> simp_all
  rw [hunit]
  constructor
  · exact fun ho => ⟨top, htop, ho⟩
  · rintro ⟨x, hx, ho⟩
    obtain ⟨rest, hr, hs⟩ := (hf.chain_ancestors d).suffix_of_mem (hf.mem_ancestors_iff.mpr hx)
    cases hr with
    | last => 
      obtain rfl : x = top := by
        obtain ⟨before, he⟩ := hs
        rw [← he] at hlast
        simpa using hlast
      exact ho
    | up hup => 
      unfold OwnedBy at hup
      rw [ho] at hup
      simp at hup

/-- A type has a name: those of the types around it, behind the name of its package. -/
theorem qualifiedName_of_type {definition : TypeDefinition} (hd : f.type? d = some definition) :
    f.qualifiedName d = .ok (".".intercalate (((f.enclosingUnit? d).bind f.packageName?).toList ++
      (((f.ancestors d).filterMap f.type?).map TypeDefinition.name).reverse)) := by
  have htypes : (f.ancestors d).mapM f.typeDefinition = .ok ((f.ancestors d).filterMap f.type?) := by
    apply mapM_eq_filterMap
    intro t ht
    obtain ⟨definition, ht⟩ := hf.exists_type?_of_mem_ancestors hd ht
    exact ⟨definition, ht, typeDefinition_eq_ok_iff.mpr ht⟩
  unfold qualifiedName
  rw [htypes]
  rfl

/-! ## The way down -/

section Descent

variable {definition : TypeDefinition}

theorem ownedBy_iff_mem (ht : f.type? t = some definition) :
    f.OwnedBy d t ↔ d ∈ definition.members := by
  unfold OwnedBy
  rw [hf.owned, held_type_of_type? ht]

theorem ownedBy_of_mem_members {x : Declaration} (ht : f.get? t = some x)
    (hd : d ∈ x.content.members) : f.OwnedBy d t := by
  apply (hf.owned d (.type t)).mpr
  rw [held_type, ht]
  exact hd

theorem isSome_of_mem (ht : f.type? t = some definition) (hd : d ∈ definition.members) :
    (f.get? d).isSome := by
  obtain ⟨x, hx, -⟩ := exists_get?_of_owner? ((hf.ownedBy_iff_mem ht).mpr hd)
  simp [hx]

theorem nestingLevel_of_mem (ht : f.type? t = some definition) (hd : d ∈ definition.members) :
    f.nestingLevel d = f.nestingLevel t + 1 :=
  hf.nestingLevel_of_ownedBy ((hf.ownedBy_iff_mem ht).mpr hd)

/-- Below a declaration stand the declaration itself and what stands below its members. -/
theorem mem_ancestors_held_iff :
    t ∈ f.ancestors d ↔ d = t ∨ ∃ m ∈ f.held (.type t), m ∈ f.ancestors d := by
  rw [hf.mem_ancestors_iff]
  constructor
  · intro h
    rcases Relation.ReflTransGen.cases_tail h with rfl | ⟨m, hm, ho⟩
    · exact .inl rfl
    · exact .inr ⟨m, (hf.owned m (.type t)).mp ho, hf.mem_ancestors_iff.mpr hm⟩
  · rintro (rfl | ⟨m, hm, hd⟩)
    · exact .refl
    · exact .tail (hf.mem_ancestors_iff.mp hd) ((hf.owned m (.type t)).mpr hm)

theorem nestingLevel_le_of_mem (h : t ∈ f.ancestors d) : f.nestingLevel t ≤ f.nestingLevel d := by
  obtain ⟨rest, hr, hs⟩ := (hf.chain_ancestors d).suffix_of_mem h
  have hlen := hs.length_le
  rw [hr.unique (hf.chain_ancestors t), length_ancestors, length_ancestors] at hlen
  omega

/-- A chain passes each level once. -/
theorem eq_of_nestingLevel_eq {a b : DeclId} (ha : a ∈ f.ancestors d) (hb : b ∈ f.ancestors d)
    (hl : f.nestingLevel a = f.nestingLevel b) : a = b := by
  obtain ⟨ra, hra, hsa⟩ := (hf.chain_ancestors d).suffix_of_mem ha
  obtain ⟨rb, hrb, hsb⟩ := (hf.chain_ancestors d).suffix_of_mem hb
  obtain rfl := hra.unique (hf.chain_ancestors a)
  obtain rfl := hrb.unique (hf.chain_ancestors b)
  have hlen : (f.ancestors a).length = (f.ancestors b).length := by
    rw [length_ancestors, length_ancestors, hl]
  have heq : f.ancestors a = f.ancestors b :=
    (List.suffix_of_suffix_length_le hsa hsb (Nat.le_of_eq hlen)).eq_of_length hlen
  obtain ⟨ra, ha'⟩ := f.exists_ancestors_eq_cons a
  obtain ⟨rb, hb'⟩ := f.exists_ancestors_eq_cons b
  rw [ha', hb'] at heq
  exact (List.cons.inj heq).1

theorem nestingLevel_of_mem_unit {u : UnitId} (hd : d ∈ f.held (.unit u)) :
    f.nestingLevel d = 0 := by
  apply hf.nestingLevel_of_not_ownedBy
  intro t ho
  have hunit := (hf.owned d (.unit u)).mpr hd
  exact absurd (ho.symm.trans hunit) (by simp)

theorem nestingLevel_of_unit_type {u : UnitId} {unit : CompilationUnit}
    (hu : f.unit? u = some unit) (ht : t ∈ unit.types) : f.nestingLevel t = 0 := by
  apply hf.nestingLevel_of_mem_unit (u := u)
  rw [held_unit_of_unit? hu]
  simp [CompilationUnit.all, ht]

end Descent

end Invariant

/-- What is no type has no name, for the reason that it is no type. -/
theorem qualifiedName_of_fault {fault : Fault} (h : f.typeDefinition d = .error fault) :
    f.qualifiedName d = .error fault := by
  obtain ⟨rest, hd⟩ := f.exists_ancestors_eq_cons d
  unfold qualifiedName
  rw [hd, List.mapM_cons, h]
  rfl

theorem Invariant.qualifiedName_eq_error_iff (hf : f.Invariant) {fault : Fault} :
    f.qualifiedName d = .error fault ↔ f.typeDefinition d = .error fault := by
  refine ⟨fun h => ?_, qualifiedName_of_fault⟩
  cases ht : f.typeDefinition d with
  | error other =>
    rw [qualifiedName_of_fault ht] at h
    cases h
    rfl
  | ok definition =>
    rw [hf.qualifiedName_of_type (typeDefinition_eq_ok_iff.mp ht)] at h
    cases h

/-- The way up from `d` is finite and is what the walk of the forest makes of it. -/
structure EndsUpward (f : Forest) (d : DeclId) : Prop where
  /-- The walk stops where the owner links stop and nowhere before. -/
  complete : f.Chain d (f.ancestors d)
  distinct : (f.ancestors d).Nodup
  steps : (f.get? d).isSome → (f.ancestors d).length ≤ f.decls.size
  unknown : f.get? d = none → f.ancestors d = [d]
  types_above : ∀ t ∈ (f.ancestors d).tail, ∃ definition, f.type? t = some definition
  top : ∃ top, (f.ancestors d).getLast? = some top ∧
    (f.owner? top = none ∨ ∃ u, f.owner? top = some (.unit u))
  level : (f.ancestors d).length = f.nestingLevel d + 1
  level_lt : (f.get? d).isSome → f.nestingLevel d < f.decls.size
  enclosing : ∀ u, f.enclosingUnit? d = some u ↔
    ∃ top, Relation.ReflTransGen f.OwnedBy d top ∧ f.owner? top = some (.unit u)
  named : (∃ name, f.qualifiedName d = .ok name) ↔ ∃ definition, f.type? d = some definition
  /-- The cycle check finds exactly the registrations at `d` that would close a cycle. -/
  cycle_check : ∀ id, f.ownerIsWithin id (.type d) = true ↔ Relation.ReflTransGen f.OwnedBy d id
  acyclic : ¬ Relation.TransGen f.OwnedBy d d

theorem reachable_endsUpward (h : f.Reachable) (d : DeclId) : f.EndsUpward d := by
  have hf := reachable_invariant h
  have hchain := hf.chain_ancestors d
  constructor
  · exact hchain
  · exact hchain.nodup
  · exact hf.length_ancestors_le
  · intro hd
    exact hf.ancestors_of_not_ownedBy fun t ho => by simp [OwnedBy, owner?, hd] at ho
  · exact fun t ht => hf.exists_type?_of_mem_tail ht
  · obtain ⟨top, ht, hn⟩ := hchain.exists_getLast?
    refine ⟨top, ht, ?_⟩
    cases ho : f.owner? top with
    | none => exact .inl rfl
    | some o =>
      cases o with
      | type t => exact absurd ho (hn t)
      | unit u => exact .inr ⟨u, rfl⟩
  · exact length_ancestors f d
  · exact hf.nestingLevel_lt
  · exact fun u => hf.enclosingUnit?_eq_some_iff
  · constructor
    · rintro ⟨name, hname⟩
      cases ht : f.typeDefinition d with
      | error fault => rw [qualifiedName_of_fault ht] at hname; cases hname
      | ok definition => exact ⟨definition, typeDefinition_eq_ok_iff.mp ht⟩
    · rintro ⟨definition, ht⟩
      exact ⟨_, hf.qualifiedName_of_type ht⟩
  · intro id
    rw [← hf.mem_ancestors_iff]
    simp [ownerIsWithin]
  · exact hchain.not_transGen_self

/-- Three levels deep in the sample the walk passes both types and ends at the outer one. -/
theorem sample_endsUpward : sample.Reachable ∧ sample.EndsUpward ⟨4⟩ ∧
    sample.ancestors ⟨4⟩ = [⟨4⟩, ⟨3⟩, ⟨2⟩] ∧ sample.owner? ⟨2⟩ = some (.unit ⟨0⟩) :=
  ⟨sample_reachable, reachable_endsUpward sample_reachable ⟨4⟩, by decide +kernel,
    by decide +kernel⟩

end DeclForest.Forest
