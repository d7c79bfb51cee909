import DeclForest.Proofs.Run

/-!
The invariant of ownership. The owner of a declaration and what its owner holds say the same, no
owner holds a declaration twice, every declaration stands where its content fits, and the owners
above it form a finite chain. A registration can only keep the last of these because its check
walks the very chain that the new link will lengthen, so all parts are carried through a run at once.
-/

namespace DeclForest.Forest

structure Invariant (f : Forest) : Prop where
  owned : ∀ d o, f.owner? d = some o ↔ d ∈ f.held o
  nodup : ∀ o, (f.held o).Nodup
  admitted : ∀ d t c, f.OwnedBy d t → f.lasting? d = some c →
    ∃ kind name, f.lasting? t = some (.type (.ofName kind name)) ∧ c.fits kind.owner = true
  sorted : ∀ u d, d ∈ f.held (.unit u) → ∃ c, f.lasting? d = some c ∧ d ∈ f.collection u c
  rooted : ∀ d, ∃ path, f.Chain d path

variable {f g : Forest} {id d : DeclId} {o : Owner} {x : Declaration} {kind : OwnerKind}
  {P : Content → Prop}

theorem empty_invariant (number : Nat) : Invariant (empty number) := by
  have hget : ∀ d, (empty number).get? d = none := by simp [empty, get?]
  have hunit : ∀ u, (empty number).unit? u = none := by simp [empty, unit?]
  have howner : ∀ d, (empty number).owner? d = none := by simp [owner?, hget]
  have hheld : ∀ o, (empty number).held o = [] := by
    intro o
    cases o <;> simp [held, hget, hunit]
  constructor
  · simp [howner, hheld]
  · simp [hheld]
  · simp [OwnedBy, howner]
  · simp [hheld]
  · exact fun d => ⟨[d], .last (by simp [OwnedBy, howner])⟩

theorem SameViews.ownedBy_iff (h : SameViews f g) {d t : DeclId} :
    g.OwnedBy d t ↔ f.OwnedBy d t := by
  unfold OwnedBy
  rw [h.owner]

theorem exists_lasting?_of_owner? (h : f.owner? d = some o) : ∃ c, f.lasting? d = some c := by
  obtain ⟨x, hx, -⟩ := exists_get?_of_owner? h
  exact ⟨x.content.lasting, lasting?_of_get? hx⟩

theorem SameViews.invariant (h : SameViews f g) (hf : f.Invariant) : g.Invariant := by
  constructor
  · intro d o
    rw [h.owner, h.held]
    exact hf.owned d o
  · intro o
    rw [h.held]
    exact hf.nodup o
  · intro d t c ho hc
    have ho := h.ownedBy_iff.mp ho
    obtain ⟨c', hc'⟩ := exists_lasting?_of_owner? ho
    obtain rfl : c' = c := Option.some.inj ((h.lasting d c' hc').symm.trans hc)
    obtain ⟨kind, name, ht, hfit⟩ := hf.admitted d t c' ho hc'
    exact ⟨kind, name, h.lasting t _ ht, hfit⟩
  · intro u d hd
    rw [h.held] at hd
    obtain ⟨c, hc, hm⟩ := hf.sorted u d hd
    refine ⟨c, h.lasting d c hc, ?_⟩
    rwa [h.collection]
  · intro d
    obtain ⟨path, hp⟩ := hf.rooted d
    exact ⟨path, hp.congr fun x _ t => h.ownedBy_iff⟩

namespace Invariant

variable (hf : f.Invariant)

include hf

theorem exists_type?_of_ownedBy {d t : DeclId} (h : f.OwnedBy d t) :
    ∃ definition, f.type? t = some definition := by
  obtain ⟨c, hc⟩ := exists_lasting?_of_owner? h
  obtain ⟨kind, name, ht, -⟩ := hf.admitted d t c h hc
  obtain ⟨definition, ht, -⟩ := lasting?_eq_type_iff.mp ht
  exact ⟨definition, ht⟩

theorem isSome_of_ownedBy {d t : DeclId} (h : f.OwnedBy d t) : (f.get? t).isSome := by
  obtain ⟨definition, ht⟩ := hf.exists_type?_of_ownedBy h
  obtain ⟨o, k, hx⟩ := type?_eq_some_iff.mp ht
  simp [hx]

/-- The bounded walk is the chain: its bound is never what ends it. -/
theorem chain_ancestors (d : DeclId) : f.Chain d (f.ancestors d) := by
  obtain ⟨path, hp⟩ := hf.rooted d
  have hlen := hp.length_le fun _ _ => hf.isSome_of_ownedBy
  unfold ancestors
  rw [hp.ancestorsWithin_eq (by omega)]
  exact hp

theorem not_mem_held (h : f.owner? d = none) (o : Owner) : d ∉ f.held o := by
  intro hd
  rw [(hf.owned d o).mpr hd] at h
  exact absurd h (by simp)

/-- What stands in a collection of a unit is of the kind that the collection is for. -/
theorem content_of_mem_unit {u : UnitId} {unit : CompilationUnit} (hu : f.unit? u = some unit) :
    (unit.package = some d → ∃ name, f.content? d = some (.package name)) ∧
    (d ∈ unit.imports → ∃ target, f.content? d = some (.typeImport target)) ∧
    (d ∈ unit.staticImports →
      ∃ target member, f.content? d = some (.staticImport target member)) ∧
    (d ∈ unit.types → ∃ t, f.content? d = some (.type t)) := by
  have hall := held_unit_of_unit? hu
  by_cases hd : d ∈ unit.all
  · obtain ⟨c, hc, hm⟩ := hf.sorted u d (hall ▸ hd)
    obtain ⟨x, hx, rfl⟩ := exists_get?_of_lasting? hc
    obtain ⟨unit', hu', hm⟩ := mem_collection_iff.mp hm
    obtain rfl : unit = unit' := Option.some.inj (hu.symm.trans hu')
    rw [CompilationUnit.collection_lasting] at hm
    rw [content?_of_get? hx]
    simpa using CompilationUnit.content_of_mem (hall ▸ hf.nodup (.unit u)) hm
  · have hnot : unit.package ≠ some d ∧ d ∉ unit.imports ∧ d ∉ unit.staticImports ∧
        d ∉ unit.types := by
      simp only [CompilationUnit.all, List.mem_append, Option.mem_toList, not_or] at hd
      exact ⟨hd.1.1.1, hd.1.2, hd.1.1.2, hd.2⟩
    exact ⟨fun h => absurd h hnot.1, fun h => absurd h hnot.2.1, fun h => absurd h hnot.2.2.1,
      fun h => absurd h hnot.2.2.2⟩

theorem owner?_of_replaced (h : f.Admissible id o x kind) {previous : DeclId}
    (hr : f.replaced? id o = some previous) : f.owner? previous = some o := by
  cases ho : o with
  | type t => simp [ho, replaced?] at hr
  | unit u =>
    obtain ⟨unit, hu, -⟩ := h.exists_unit ho
    rw [ho, replaced?_unit h.found hu] at hr
    rw [hf.owned, held_unit_of_unit? hu]
    exact CompilationUnit.mem_all_of_driven hr

private theorem attach_owned (h : f.Admissible id o x kind) (d : DeclId) (o' : Owner) :
    (f.attach id o).owner? d = some o' ↔ d ∈ (f.attach id o).held o' := by
  have hid := hf.not_mem_held h.owner?_eq_none
  rw [h.owner?_attach, h.mem_held_attach hf.nodup hid]
  by_cases hd : d = id
  · simp [hd, hid o', eq_comm]
  by_cases hr : f.replaced? id o = some d
  · have ho := hf.owner?_of_replaced h hr
    simp only [hd, hr, if_false, if_true, and_false, false_or]
    constructor
    · simp
    · rintro ⟨hm, hne⟩
      have ho' := (hf.owned d o').mpr hm
      exact absurd rfl (hne (Option.some.inj (ho'.symm.trans ho)))
  · simp [hd, hr, hf.owned]

/-- An attachment adds one link at most, and no link between types is ever taken away. -/
theorem ownedBy_attach (h : f.Admissible id o x kind) {d t : DeclId} :
    (f.attach id o).OwnedBy d t ↔ (d = id ∧ o = .type t) ∨ (d ≠ id ∧ f.OwnedBy d t) := by
  unfold OwnedBy
  rw [h.owner?_attach]
  by_cases hd : d = id
  · simp [hd]
  by_cases hr : f.replaced? id o = some d
  · have ho := hf.owner?_of_replaced h hr
    cases o with
    | type t' => simp [replaced?] at hr
    | unit u => simp [hd, hr, ho]
  · simp [hd, hr]

private theorem attach_admitted (h : f.Admissible id o x kind) (d t : DeclId) (c : Content)
    (ho : (f.attach id o).OwnedBy d t) (hc : (f.attach id o).lasting? d = some c) :
    ∃ kind name, (f.attach id o).lasting? t = some (.type (.ofName kind name)) ∧
      c.fits kind.owner = true := by
  simp only [h.lasting?_attach] at hc ⊢
  rcases (hf.ownedBy_attach h).mp ho with ⟨rfl, rfl⟩ | ⟨-, ho⟩
  · obtain ⟨definition, ht, rfl⟩ := ownerKind_type_eq_ok_iff.mp h.ownerKind
    obtain rfl : x.content.lasting = c := by
      simpa [lasting?_of_get? h.found] using hc
    exact ⟨definition.kind, definition.name, lasting?_eq_type_iff.mpr ⟨_, ht, rfl, rfl⟩,
      by simpa using h.fits⟩
  · exact hf.admitted d t c ho hc

private theorem attach_sorted (h : f.Admissible id o x kind) (u : UnitId) (d : DeclId)
    (hd : d ∈ (f.attach id o).held (.unit u)) :
    ∃ c, (f.attach id o).lasting? d = some c ∧ d ∈ (f.attach id o).collection u c := by
  simp only [h.lasting?_attach]
  have hid := hf.not_mem_held h.owner?_eq_none
  rcases (h.mem_held_attach hf.nodup hid (.unit u)).mp hd with ⟨ho, rfl⟩ | ⟨hm, hr⟩
  · refine ⟨x.content.lasting, lasting?_of_get? h.found, ?_⟩
    rw [collection_lasting]
    exact h.self_mem_collection_attach ho.symm
  · obtain ⟨c, hc, hm⟩ := hf.sorted u d hm
    exact ⟨c, hc, h.mem_collection_attach hm fun ho => hr ho.symm⟩

/-- Above the new owner nothing changes, because its chain does not meet the new member. -/
private theorem attach_chain_above {t : DeclId} (h : f.Admissible id (.type t) x kind) :
    (f.attach id (.type t)).Chain t (f.ancestors t) := by
  apply (hf.chain_ancestors t).congr
  intro y hy t'
  have hw := h.outside
  simp only [ownerIsWithin, decide_eq_false_iff_not] at hw
  have hne : y ≠ id := fun he => hw (he ▸ hy)
  simp [hf.ownedBy_attach h, hne]

private theorem attach_rooted (h : f.Admissible id o x kind) (d : DeclId) :
    ∃ path, (f.attach id o).Chain d path := by
  obtain ⟨path, hp⟩ := hf.rooted d
  induction hp with
  | @last d hn =>
    by_cases hup : d = id ∧ ∃ t, o = .type t
    · obtain ⟨rfl, t, rfl⟩ := hup
      have hup := (hf.ownedBy_attach h).mpr (.inl ⟨rfl, rfl⟩)
      exact ⟨_, .up hup (hf.attach_chain_above h)⟩
    · refine ⟨[d], .last fun t ht => ?_⟩
      rcases (hf.ownedBy_attach h).mp ht with ⟨hd, ho⟩ | ⟨-, ho⟩
      · exact hup ⟨hd, t, ho⟩
      · exact hn t ho
  | @up d t path hd hp ih =>
    obtain ⟨path', hp'⟩ := ih
    have hne : d ≠ id := by
      rintro rfl
      exact absurd (hd.symm.trans h.owner?_eq_none) (by simp)
    exact ⟨d :: path', .up ((hf.ownedBy_attach h).mpr (.inr ⟨hne, hd⟩)) hp'⟩

theorem attach (h : f.Admissible id o x kind) : (f.attach id o).Invariant where
  owned := hf.attach_owned h
  nodup := h.nodup_held_attach hf.nodup (hf.not_mem_held h.owner?_eq_none)
  admitted := hf.attach_admitted h
  sorted := hf.attach_sorted h
  rooted := hf.attach_rooted h

end Invariant

/-- Ownership looks the same after any change, or else one registration was carried out. -/
theorem Change.sameViews_or_attach (h : Change P f g) :
    SameViews f g ∨ ∃ id o x kind, f.Admissible id o x kind ∧ g = f.attach id o := by
  cases h with
  | @declare c => exact .inl (declare_sameViews f c .none)
  | newUnit => exact .inl (newUnit_sameViews f)
  | attach hc =>
    obtain ⟨x, kind, ha⟩ := checkRegistration_eq_pending_iff.mp hc
    exact .inr ⟨_, _, x, kind, ha, rfl⟩
  | setModifiers => exact .inl (updateDecl_sameViews (by simp) (by simp) (by simp))
  | @extend id super t t' ht he =>
    refine .inl (updateType_sameViews fun s hs => ?_)
    obtain rfl : t = s := Option.some.inj (ht.symm.trans hs)
    unfold TypeDefinition.extending at he
    split at he
    · simp at he
    split at he
    · simp at he
    cases he
    exact ⟨rfl, rfl, rfl⟩
  | implement id face =>
    refine .inl (updateType_sameViews fun t _ => ?_)
    unfold TypeDefinition.implementing
    split <;> exact ⟨rfl, rfl, rfl⟩
  | comment id change => exact .inl (updateDecl_sameViews (by simp) (by simp) (by simp))
  | issue id issuer => exact .inl (updateType_sameViews fun _ _ => ⟨rfl, rfl, rfl⟩)
  | fork number => exact .inl ⟨fun _ => rfl, fun _ => rfl, fun _ _ => rfl, fun _ _ hc => hc⟩

theorem Change.invariant (h : Change P f g) (hf : f.Invariant) : g.Invariant := by
  rcases h.sameViews_or_attach with hs | ⟨id, o, x, kind, ha, rfl⟩
  · exact hs.invariant hf
  · exact hf.attach ha

theorem reachable_invariant (h : f.Reachable) : f.Invariant :=
  h.induction empty_invariant Change.invariant

/-- What lasts of a declaration is there for good. -/
theorem Change.lasting (h : Change P f g) {c : Content} (hc : f.lasting? d = some c) :
    g.lasting? d = some c := by
  rcases h.sameViews_or_attach with hs | ⟨id, o, x, kind, ha, rfl⟩
  · exact hs.lasting d c hc
  · exact (ha.lasting?_attach d).trans hc

theorem lasting?_after {c : Content} (ops : List Operation) (hc : f.lasting? d = some c) :
    (f.after ops).lasting? d = some c :=
  Changes.keep (I := fun f => f.lasting? d = some c) (fun h => h.lasting) (after_changes f ops) hc

end DeclForest.Forest
