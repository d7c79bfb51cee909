import DeclForest.Proofs.Placement

/-!
Modifiers that are set anew. The place of a declaration says which sets it may be given, and a set
that is accepted takes the place of the old one and of nothing else. One kind of declaration keeps
what it has: the modifiers of a static initializer are fixed, but its mask permits the empty set as
well, which is therefore accepted and not read back.
-/

namespace DeclForest

namespace ConstructKind

variable {m : Modifiers}

theorem Permits.eq_empty (h : initializer.Permits m) : m = .empty := by
  have hbits : m.bits = 0 := by
    apply BitVec.eq_of_getLsbD_eq
    intro i hi
    by_contra hne
    have hlegal := h.inside i (by simpa using hne)
    simp [show initializer.legal.bits = 0#16 from rfl] at hlegal
  rw [Modifiers.empty, ← hbits]

theorem Permits.eq_empty_or_static (h : staticInitializer.Permits m) :
    m = .empty ∨ m = .ofFlag .static := by
  have hmask : staticInitializer.legal.bits = 8#16 := by decide
  have honly : ∀ i < 16, (8#16).getLsbD i = decide (i = 3) := by decide
  have hbit : ∀ i < 16, m.bits.getLsbD i = (decide (i = 3) && m.bits.getLsbD 3) := by
    intro i hi
    by_cases h3 : i = 3
    · simp [h3]
    · by_contra hset
      have hlegal := h.inside i (by simpa [h3] using hset)
      simp [hmask, honly i hi, h3] at hlegal
  cases hset : m.bits.getLsbD 3 with
  | false =>
    have hbits : m.bits = 0 := by
      apply BitVec.eq_of_getLsbD_eq
      intro i hi
      rw [hbit i hi, hset, Bool.and_false, BitVec.ofNat_eq_ofNat, BitVec.getLsbD_zero]
    exact .inl (by rw [Modifiers.empty, ← hbits])
  | true =>
    have hbits : m.bits = Flag.static.mask := by
      apply BitVec.eq_of_getLsbD_eq
      intro i hi
      rw [hbit i hi, hset, Bool.and_true]
      exact (honly i hi).symm
    exact .inr (by rw [Modifiers.ofFlag, ← hbits])

end ConstructKind

namespace Content

variable {c : Content} {place : Option OwnerKind} {m : Modifiers}

/-- The modifiers are legal for the construct that the declaration is in a place; what is no such
construct has none at all. -/
inductive MayTake (c : Content) (place : Option OwnerKind) (m : Modifiers) : Prop where
  | masked {construct : ConstructKind} : c.construct? place = some construct →
      construct.Permits m → MayTake c place m
  | plain : c.IsUnitLevel → m = .empty → MayTake c place m

def StandsIn (c : Content) (place : Option OwnerKind) : Prop :=
  ∀ kind, place = some kind → c.fits kind = true

/-- Where a declaration may stand it is a construct with a mask, unless it is of the unit level. -/
theorem StandsIn.exists_construct? (h : c.StandsIn place) (hc : ¬ c.IsUnitLevel) :
    ∃ construct, c.construct? place = some construct := by
  apply Option.isSome_iff_exists.mp
  rcases place with _ | kind
  · cases c <;> simp_all [construct?, isUnitLevel_iff]
  · have hfit := h kind rfl
    cases c <;> simp_all [fits, isUnitLevel_iff]

theorem IsUnitLevel.construct?_eq_none (h : c.IsUnitLevel) (place : Option OwnerKind) :
    c.construct? place = none := by
  rcases isUnitLevel_iff.mp h with ⟨_, rfl⟩ | ⟨_, rfl⟩ | ⟨_, _, rfl⟩ <;>
    rcases place with _ | _ | _ | _ <;> rfl

theorem setModifiers_setModifiers (c : Content) (m n : Modifiers) :
    (c.setModifiers m).setModifiers n = c.setModifiers n := by
  cases c <;> rfl

/-- What may be taken is read back, but for the empty set of a static initializer. -/
theorem MayTake.modifiers_setModifiers (h : c.MayTake place m) :
    (c.setModifiers m).modifiers = m ∨ (∃ body, c = .staticInitializer body) ∧ m = .empty := by
  cases h with
  | plain hc hm =>
    rw [hc.setModifiers, hm]
    rcases isUnitLevel_iff.mp hc with ⟨_, rfl⟩ | ⟨_, rfl⟩ | ⟨_, _, rfl⟩ <;> exact .inl rfl
  | @masked construct hk hm =>
    cases c with
    | field | method | constructor | type => exact .inl rfl
    | initializer body =>
      obtain rfl : construct = .initializer := by
        rcases place with _ | _ | _ | _ <;> simp [construct?] at hk <;> exact hk.symm
      exact .inl hm.eq_empty.symm
    | staticInitializer body =>
      obtain rfl : construct = .staticInitializer := by
        rcases place with _ | _ | _ | _ <;> simp [construct?] at hk <;> exact hk.symm
      rcases hm.eq_empty_or_static with rfl | rfl
      · exact .inr ⟨⟨body, rfl⟩, rfl⟩
      · exact .inl rfl
    | package | typeImport | staticImport =>
      rcases place with _ | _ | _ | _ <;> simp [construct?] at hk

end Content

namespace Forest

variable {f g : Forest} {id : DeclId} {x : Declaration} {place : Option OwnerKind} {m : Modifiers}

/-- The owner of a declaration is always there, and of a kind that may hold it. -/
theorem Invariant.exists_place (hf : f.Invariant) (hx : f.get? id = some x) :
    ∃ place, f.Place x.owner place ∧ x.content.StandsIn place := by
  cases ho : x.owner with
  | none => exact ⟨none, .detached, by simp [Content.StandsIn]⟩
  | some o =>
    have howner : f.owner? id = some o := by simp [owner?, hx, ho]
    cases o with
    | type t =>
      obtain ⟨definition, ht, hm⟩ := hf.owner?_type_iff.mp howner
      obtain ⟨c, hc, hstand⟩ := hf.mayStandIn_of_mem ht hm
      obtain rfl := Option.some.inj ((content?_of_get? hx).symm.trans hc)
      refine ⟨_, .owned (.type ht), ?_⟩
      rintro kind ⟨⟩
      rwa [Content.fits_owner]
    | unit u =>
      obtain ⟨unit, c, hu, hc, hm⟩ := hf.owner?_unit_iff.mp howner
      obtain rfl := Option.some.inj ((content?_of_get? hx).symm.trans hc)
      refine ⟨_, .owned (.unit hu), ?_⟩
      rintro kind ⟨⟩
      cases hx : x.content <;>
        simp_all [CompilationUnit.collection, Content.fits, Content.construct?]

theorem checkModifiers_eq_ok_iff (hx : f.get? id = some x) (hp : f.Place x.owner place)
    (hs : x.content.StandsIn place) :
    f.checkModifiers id m = .ok () ↔ x.content.MayTake place m := by
  rw [checkModifiers_of_place hx hp]
  constructor
  · intro h
    cases hc : x.content.construct? place with
    | some construct =>
      rw [hc] at h
      exact .masked hc (ConstructKind.permits_of_check h)
    | none =>
      have hu : x.content.IsUnitLevel := by
        by_contra hu
        obtain ⟨construct, hsome⟩ := hs.exists_construct? hu
        simp [hc] at hsome
      refine .plain hu ?_
      rw [hc] at h
      cases m
      simpa [Modifiers.isEmpty, Modifiers.empty] using h
  · rintro (⟨hc, hm⟩ | ⟨hu, rfl⟩)
    · rw [hc]
      exact ConstructKind.check_eq_ok_iff.mpr (ConstructKind.allows_iff_permits.mpr hm)
    · rw [hu.construct?_eq_none]
      rfl

theorem run_setModifiers (f : Forest) (id : DeclId) (m : Modifiers) :
    (setModifiers id m).run f =
      match f.checkModifiers id m with
      | .ok () =>
        (.ok (), f.updateDecl id fun d => { d with content := d.content.setModifiers m })
      | .error fault => (.error fault, f) := by
  unfold setModifiers
  rw [Edit.run_inspect_bind]
  cases f.checkModifiers id m <;> rfl

theorem updateDecl_of_same {change : Declaration → Declaration} (hx : f.get? id = some x)
    (h : change x = x) : f.updateDecl id change = f := by
  refine eq_of_look_ups rfl (fun d => ?_) fun _ => rfl
  by_cases hd : d = id <;> simp [hd, hx, h]

/-- A forest in which the declaration `x` was given modifiers, and nothing else was changed. -/
structure Remodified (f : Forest) (id : DeclId) (x : Declaration) (m : Modifiers) (g : Forest) :
    Prop where
  number : g.number = f.number
  unit : ∀ u, g.unit? u = f.unit? u
  others : ∀ d, d ≠ id → g.get? d = f.get? d
  /-- Before and after are one declaration once both are given the same modifiers. -/
  itself : ∃ y, g.get? id = some y ∧ y.owner = x.owner ∧ y.comments = x.comments ∧
    ∀ n, y.content.setModifiers n = x.content.setModifiers n
  readBack : ((g.get? id).map fun y => y.content.modifiers) = some m ∨
    (∃ body, x.content = .staticInitializer body) ∧ m = .empty ∧ g = f

theorem remodified_of_mayTake (hx : f.get? id = some x) (hm : x.content.MayTake place m) :
    f.Remodified id x m
      (f.updateDecl id fun d => { d with content := d.content.setModifiers m }) := by
  have hself : (f.updateDecl id fun d => { d with content := d.content.setModifiers m }).get? id =
      some { x with content := x.content.setModifiers m } := by simp [hx]
  constructor
  · rfl
  · exact fun _ => rfl
  · exact fun d hd => by simp [hd]
  · exact ⟨_, hself, rfl, rfl, x.content.setModifiers_setModifiers m⟩
  · rcases hm.modifiers_setModifiers with hread | ⟨⟨body, hbody⟩, rfl⟩
    · exact .inl (by rw [hself, Option.map_some, hread])
    · have hkeep : x.content.setModifiers .empty = x.content := by
        rw [hbody]
        rfl
      exact .inr ⟨⟨body, hbody⟩, rfl, updateDecl_of_same hx (by rw [hkeep])⟩

structure SetsModifiers (f : Forest) (id : DeclId) (x : Declaration) (place : Option OwnerKind)
    (m : Modifiers) : Prop where
  accepted : ((setModifiers id m).run f).1 = .ok () ↔ x.content.MayTake place m
  success : ∀ g, (setModifiers id m).run f = (.ok (), g) → f.Remodified id x m g
  refused : ∀ fault g, (setModifiers id m).run f = (.error fault, g) → g = f

theorem setsModifiers_of_place (hx : f.get? id = some x) (hp : f.Place x.owner place)
    (hs : x.content.StandsIn place) (m : Modifiers) : f.SetsModifiers id x place m := by
  have hcheck : f.checkModifiers id m = .ok () ↔ x.content.MayTake place m :=
    checkModifiers_eq_ok_iff hx hp hs
  have hrun := f.run_setModifiers id m
  cases hc : f.checkModifiers id m with
  | error fault =>
    simp only [hc] at hcheck hrun
    constructor <;> simp_all
  | ok =>
    simp only [hc] at hrun
    have hm : x.content.MayTake place m := hcheck.mp hc
    constructor
    · simp [hrun, hm]
    · intro g hg
      obtain ⟨-, rfl⟩ := Prod.mk.inj (hrun.symm.trans hg)
      exact remodified_of_mayTake hx hm
    · intro fault g hg
      simp [hrun] at hg

theorem reachable_setsModifiers (h : f.Reachable) (hx : f.get? id = some x) :
    ∃ place, f.Place x.owner place ∧ ∀ m, f.SetsModifiers id x place m := by
  have hf := reachable_invariant h
  obtain ⟨place, hp, hs⟩ := hf.exists_place hx
  exact ⟨place, hp, setsModifiers_of_place hx hp hs⟩

/-- The nested class of the sample may become private and static, but not transient. -/
theorem sample_setsModifiers : sample.Reachable ∧
    (∃ x place, sample.get? ⟨3⟩ = some x ∧ sample.Place x.owner place ∧
      (∀ m, sample.SetsModifiers ⟨3⟩ x place m) ∧
      x.content.MayTake place (.ofFlags [.privateAccess, .static]) ∧
      ¬ x.content.MayTake place (.ofFlag .transient)) ∧
    ((((setModifiers ⟨3⟩ (.ofFlags [.privateAccess, .static])).run sample).2.get? ⟨3⟩).map
      fun y => y.content.modifiers) = some (.ofFlags [.privateAccess, .static]) := by
  obtain ⟨x, hx⟩ := Option.isSome_iff_exists.mp (show (sample.get? ⟨3⟩).isSome by decide +kernel)
  obtain ⟨place, hp, hsets⟩ := reachable_setsModifiers sample_reachable hx
  have hgood : ((setModifiers ⟨3⟩ (.ofFlags [.privateAccess, .static])).run sample).1 = .ok () := by
    decide +kernel
  have hbad : ((setModifiers ⟨3⟩ (.ofFlag .transient)).run sample).1 ≠ .ok () := by
    decide +kernel
  refine ⟨sample_reachable, ⟨x, place, hx, hp, hsets, ?_, ?_⟩, by decide +kernel⟩
  · exact (hsets _).accepted.mp hgood
  · exact fun hm => hbad ((hsets _).accepted.mpr hm)

def initialized : Forest :=
  (empty 0).after [.declare (.type (.ofName .classKind "Counter")),
    .addNew ⟨0⟩ (.staticInitializer ["next = 0;"])]

/-- The empty set is legal for a static initializer, it is accepted, and it is not read back. -/
theorem empty_set_not_read_back : initialized.Reachable ∧
    initialized.get? ⟨1⟩ =
      some ⟨.staticInitializer ["next = 0;"], some (.type ⟨0⟩), .none⟩ ∧
    initialized.Place (some (.type ⟨0⟩)) (some .classOwner) ∧
    (Content.staticInitializer ["next = 0;"]).MayTake (some .classOwner) .empty ∧
    ∃ g, (setModifiers ⟨1⟩ .empty).run initialized = (.ok (), g) ∧
      ((g.get? ⟨1⟩).map fun y => y.content.modifiers) ≠ some .empty := by
  refine ⟨⟨0, _, rfl⟩, by decide +kernel, ?_, ?_, _, rfl, by decide +kernel⟩
  · have ht : initialized.type? ⟨0⟩ =
        some { TypeDefinition.ofName .classKind "Counter" with members := [⟨1⟩] } := by
      decide +kernel
    exact .owned (.type ht)
  · exact .masked rfl (ConstructKind.permits_empty _)

end Forest

end DeclForest
