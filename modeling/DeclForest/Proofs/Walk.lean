import DeclForest.Proofs.Ancestry
import DeclForest.Proofs.Ownership

/-!
The walk down through a forest against the ways up. `Walk` visits a list of declarations one after
the other, each before its members and those before the next; it has no bound of its own, so that
having a walk at all says that it ends. In a reachable forest the walk from what a unit holds ends,
meets exactly the declarations whose way up leads to the unit, each once, and as deep as their
nesting level says.
-/

namespace DeclForest.Forest

/-- The declarations that are met on the way down, each with the depth at which it is met. -/
inductive Walk (f : Forest) : Nat → List DeclId → List (DeclId × Nat) → Prop where
  | done {depth : Nat} : Walk f depth [] []
  | visit {depth : Nat} {d : DeclId} {rest : List DeclId} {below others : List (DeclId × Nat)} :
      Walk f (depth + 1) ((f.membersOf d).map Prod.fst) below → Walk f depth rest others →
      Walk f depth (d :: rest) ((d, depth) :: (below ++ others))

variable {f : Forest} {d t : DeclId} {depth : Nat} {ids : List DeclId}
  {visits : List (DeclId × Nat)}

theorem Walk.unique {other : List (DeclId × Nat)} (h : f.Walk depth ids visits)
    (h' : f.Walk depth ids other) : visits = other := by
  induction h generalizing other with
  | done =>
    cases h'
    rfl
  | visit _ _ ihbelow ihrest =>
    cases h' with
    | visit hbelow hrest => rw [ihbelow hbelow, ihrest hrest]

theorem exists_walk_of_forall (h : ∀ d ∈ ids, ∃ below,
    f.Walk (depth + 1) ((f.membersOf d).map Prod.fst) below) :
    ∃ visits, f.Walk depth ids visits := by
  induction ids with
  | nil => exact ⟨[], .done⟩
  | cons d rest ih =>
    obtain ⟨below, hbelow⟩ := h d List.mem_cons_self
    obtain ⟨others, hothers⟩ := ih fun x hx => h x (List.mem_cons_of_mem d hx)
    exact ⟨(d, depth) :: (below ++ others), .visit hbelow hothers⟩

namespace Invariant

variable (hf : f.Invariant)

include hf

/-- No member is skipped by the views of a type: every one of them is there. -/
theorem map_fst_membersOf (t : DeclId) : (f.membersOf t).map Prod.fst = f.held (.type t) := by
  have hheld : ((f.type? t).map TypeDefinition.members).getD [] = f.held (.type t) := by
    cases ht : f.type? t with
    | some definition => exact (held_type_of_type? ht).symm
    | none =>
      symm
      apply List.eq_nil_iff_forall_not_mem.mpr
      intro m hm
      obtain ⟨definition, hdefinition, -⟩ := mem_held_type_iff.mp hm
      simp [ht] at hdefinition
  have hthere : ∀ m ∈ f.held (.type t), ∃ x, f.get? m = some x := by
    intro m hm
    obtain ⟨x, hx, -⟩ := exists_get?_of_owner? ((hf.owned m (.type t)).mpr hm)
    exact ⟨x, hx⟩
  unfold membersOf
  rw [hheld, List.map_filterMap]
  generalize f.held (.type t) = members at hthere ⊢
  induction members with
  | nil => rfl
  | cons m members ih =>
    obtain ⟨x, hx⟩ := hthere m List.mem_cons_self
    have hrest := ih fun y hy => hthere y (List.mem_cons_of_mem m hy)
    rw [List.filterMap_cons_some (b := m) (by simp [hx]), hrest]

theorem nestingLevel_of_held {m : DeclId} (hm : m ∈ f.held (.type t)) :
    f.nestingLevel m = f.nestingLevel t + 1 :=
  hf.nestingLevel_of_ownedBy ((hf.owned m (.type t)).mpr hm)

/-- What lies within a member of a type lies within the type and deeper than it. -/
theorem below_of_held {m : DeclId} (hm : m ∈ f.held (.type t)) (hup : m ∈ f.ancestors d) :
    t ∈ f.ancestors d ∧ f.nestingLevel t < f.nestingLevel d := by
  have hle := hf.nestingLevel_le_of_mem hup
  have hm' := hf.nestingLevel_of_held hm
  exact ⟨hf.mem_ancestors_held_iff.mpr (.inr ⟨m, hm, hup⟩), by omega⟩

/-- The walk from a member has one level less to go, and no level reaches the number of
declarations. -/
theorem exists_walk_below (d : DeclId) (depth : Nat) :
    ∃ below, f.Walk depth ((f.membersOf d).map Prod.fst) below := by
  apply exists_walk_of_forall
  intro m hm
  rw [hf.map_fst_membersOf] at hm
  obtain ⟨x, hx, -⟩ := exists_get?_of_owner? ((hf.owned m (.type d)).mpr hm)
  have hlt := hf.nestingLevel_lt (d := m) (by simp [hx])
  have hl := hf.nestingLevel_of_held hm
  exact exists_walk_below m (depth + 1)
termination_by f.decls.size - f.nestingLevel d

theorem walk_iff (depth : Nat) (ids : List DeclId) :
    ∃ visits, ∀ other, f.Walk depth ids other ↔ other = visits := by
  obtain ⟨visits, h⟩ : ∃ visits, f.Walk depth ids visits :=
    exists_walk_of_forall fun d _ => hf.exists_walk_below d (depth + 1)
  refine ⟨visits, fun other => ⟨fun hother => hother.unique h, ?_⟩⟩
  rintro rfl
  exact h

/-- The walk meets what lies within one of the declarations that it starts from. -/
theorem mem_walk_iff (h : f.Walk depth ids visits) :
    d ∈ visits.map Prod.fst ↔ ∃ t ∈ ids, t ∈ f.ancestors d := by
  induction h with
  | done => simp
  | @visit depth t rest below others _ _ ihbelow ihrest =>
    rw [hf.map_fst_membersOf] at ihbelow
    simp only [List.map_cons, List.map_append, List.mem_cons, List.mem_append, ihbelow, ihrest,
      exists_eq_or_imp]
    rw [hf.mem_ancestors_held_iff (t := t), or_assoc]

/-- Each level of the walk is a level of nesting. -/
theorem depth_of_mem_walk (h : f.Walk depth ids visits)
    (hl : ∀ t ∈ ids, f.nestingLevel t = depth) : ∀ v ∈ visits, v.2 = f.nestingLevel v.1 := by
  induction h with
  | done => simp
  | @visit depth t rest below others _ _ ihbelow ihrest =>
    have ht := hl t List.mem_cons_self
    have hmembers : ∀ m ∈ (f.membersOf t).map Prod.fst, f.nestingLevel m = depth + 1 := by
      intro m hm
      rw [hf.map_fst_membersOf] at hm
      rw [hf.nestingLevel_of_held hm, ht]
    intro v hv
    rcases List.mem_cons.mp hv with rfl | hv
    · exact ht.symm
    rcases List.mem_append.mp hv with hv | hv
    · exact ihbelow hmembers v hv
    · exact ihrest (fun x hx => hl x (List.mem_cons_of_mem t hx)) v hv

/-- Two declarations of one level have nothing below them in common, so nothing is met twice. -/
theorem nodup_walk (h : f.Walk depth ids visits) (hn : ids.Nodup)
    (hl : ∀ t ∈ ids, f.nestingLevel t = depth) : (visits.map Prod.fst).Nodup := by
  induction h with
  | done => exact List.nodup_nil
  | @visit depth t rest below others hbelow hrest ihbelow ihrest =>
    obtain ⟨htrest, hnrest⟩ := List.nodup_cons.mp hn
    have ht := hl t List.mem_cons_self
    have hlrest : ∀ x ∈ rest, f.nestingLevel x = depth :=
      fun x hx => hl x (List.mem_cons_of_mem t hx)
    rw [hf.map_fst_membersOf] at hbelow ihbelow
    have hmembers : ∀ m ∈ f.held (.type t), f.nestingLevel m = depth + 1 := by
      intro m hm
      rw [hf.nestingLevel_of_held hm, ht]
    have hwithin : ∀ x ∈ below.map Prod.fst,
        t ∈ f.ancestors x ∧ f.nestingLevel t < f.nestingLevel x := by
      intro x hx
      obtain ⟨m, hm, hup⟩ := (hf.mem_walk_iff hbelow).mp hx
      exact hf.below_of_held hm hup
    have hapart : ∀ x, t ∈ f.ancestors x → x ∉ others.map Prod.fst := by
      intro x hx hothers
      obtain ⟨y, hy, hup⟩ := (hf.mem_walk_iff hrest).mp hothers
      have heq := hf.eq_of_nestingLevel_eq hx hup (ht.trans (hlrest y hy).symm)
      exact htrest (heq ▸ hy)
    rw [List.map_cons, List.map_append]
    refine List.nodup_cons.mpr ⟨?_, List.nodup_append.mpr
      ⟨ihbelow (hf.nodup (.type t)) hmembers, ihrest hnrest hlrest, ?_⟩⟩
    · intro hself
      rcases List.mem_append.mp hself with hself | hself
      · exact absurd (hwithin t hself).2 (Nat.lt_irrefl _)
      · exact hapart t (f.self_mem_ancestors t) hself
    · rintro x hx y hy rfl
      exact hapart x (hwithin x hx).1 hy

/-- What is met with its depth, once it is known what is met. -/
theorem mem_visits_iff (h : f.Walk depth ids visits) (hl : ∀ t ∈ ids, f.nestingLevel t = depth)
    {n : Nat} : (d, n) ∈ visits ↔ (∃ t ∈ ids, t ∈ f.ancestors d) ∧ n = f.nestingLevel d := by
  rw [← hf.mem_walk_iff h]
  constructor
  · intro hv
    exact ⟨List.mem_map.mpr ⟨_, hv, rfl⟩, hf.depth_of_mem_walk h hl _ hv⟩
  · rintro ⟨hd, rfl⟩
    obtain ⟨⟨x, n⟩, hv, rfl⟩ := List.mem_map.mp hd
    have hn := hf.depth_of_mem_walk h hl _ hv
    simp only at hn
    rwa [← hn]

/-- From declarations of one level there is one walk; it meets each declaration that lies within
one of them once, and at its level. -/
theorem exists_unique_walk (hn : ids.Nodup) (hl : ∀ t ∈ ids, f.nestingLevel t = depth) :
    ∃ visits, (∀ other, f.Walk depth ids other ↔ other = visits) ∧
      (visits.map Prod.fst).Nodup ∧
      ∀ d n, (d, n) ∈ visits ↔ (∃ t ∈ ids, t ∈ f.ancestors d) ∧ n = f.nestingLevel d := by
  obtain ⟨visits, hvisits⟩ := hf.walk_iff depth ids
  have hw := (hvisits visits).mpr rfl
  exact ⟨visits, hvisits, hf.nodup_walk hw hn hl, fun _ _ => hf.mem_visits_iff hw hl⟩

/-- A declaration is in a unit if the unit holds something at or above it. -/
theorem enclosingUnit?_eq_iff_held {u : UnitId} :
    f.enclosingUnit? d = some u ↔ ∃ top ∈ f.held (.unit u), top ∈ f.ancestors d := by
  rw [hf.enclosingUnit?_eq_some_iff]
  constructor
  · rintro ⟨top, hup, ho⟩
    exact ⟨top, (hf.owned top (.unit u)).mp ho, hf.mem_ancestors_iff.mpr hup⟩
  · rintro ⟨top, htop, hup⟩
    exact ⟨top, hf.mem_ancestors_iff.mp hup, (hf.owned top (.unit u)).mpr htop⟩

end Invariant

theorem allMembers_eq_ok_iff {u : UnitId} :
    f.allMembers u = .ok ids ↔ (f.unit? u).isSome ∧ f.held (.unit u) = ids := by
  cases hu : f.unit? u with
  | none => simp [allMembers, Forest.unit, hu, Except.map]
  | some unit => simp [allMembers_eq hu, held_unit_of_unit? hu]

structure WalksMatchChains (f : Forest) : Prop where
  /-- There is one walk through a unit, and it meets each declaration of the unit once. -/
  unit : ∀ u ids, f.allMembers u = .ok ids → ∃ visits,
    (∀ other, f.Walk 0 ids other ↔ other = visits) ∧ (visits.map Prod.fst).Nodup ∧
    ∀ d n, (d, n) ∈ visits ↔ f.enclosingUnit? d = some u ∧ n = f.nestingLevel d
  type : ∀ t definition, f.type? t = some definition → ∃ visits,
    (∀ other, f.Walk (f.nestingLevel t + 1) definition.members other ↔ other = visits) ∧
    (visits.map Prod.fst).Nodup ∧
    ∀ d n, (d, n) ∈ visits ↔ (d ≠ t ∧ t ∈ f.ancestors d) ∧ n = f.nestingLevel d
  no_unit : ∀ u d, f.unit? u = none → f.enclosingUnit? d ≠ some u
  units_apart : ∀ u v ids others visits visits', u ≠ v → f.allMembers u = .ok ids →
    f.allMembers v = .ok others → f.Walk 0 ids visits → f.Walk 0 others visits' →
    (visits.map Prod.fst).Disjoint (visits'.map Prod.fst)
  detached : ∀ d top u ids visits, (f.ancestors d).getLast? = some top → f.owner? top = none →
    f.allMembers u = .ok ids → f.Walk 0 ids visits → d ∉ visits.map Prod.fst

theorem reachable_walksMatchChains (h : f.Reachable) : f.WalksMatchChains := by
  have hf := reachable_invariant h
  have hunit : ∀ u ids visits, f.allMembers u = .ok ids → f.Walk 0 ids visits →
      ∀ d, d ∈ visits.map Prod.fst ↔ f.enclosingUnit? d = some u := by
    intro u ids visits hu hw d
    obtain ⟨-, rfl⟩ := allMembers_eq_ok_iff.mp hu
    rw [hf.mem_walk_iff hw, hf.enclosingUnit?_eq_iff_held]
  constructor
  · intro u ids hu
    obtain ⟨-, rfl⟩ := allMembers_eq_ok_iff.mp hu
    obtain ⟨visits, hvisits, hnodup, hmem⟩ :=
      hf.exists_unique_walk (hf.nodup (.unit u)) fun t ht => hf.nestingLevel_of_mem_unit ht
    refine ⟨visits, hvisits, hnodup, fun d n => ?_⟩
    rw [hmem, hf.enclosingUnit?_eq_iff_held]
  · intro t definition ht
    rw [← held_type_of_type? ht]
    obtain ⟨visits, hvisits, hnodup, hmem⟩ :=
      hf.exists_unique_walk (hf.nodup (.type t)) fun m hm => hf.nestingLevel_of_held hm
    refine ⟨visits, hvisits, hnodup, fun d n => ?_⟩
    rw [hmem, hf.mem_ancestors_held_iff (t := t)]
    constructor
    · rintro ⟨⟨m, hm, hup⟩, hn⟩
      refine ⟨⟨?_, .inr ⟨m, hm, hup⟩⟩, hn⟩
      rintro rfl
      exact absurd (hf.below_of_held hm hup).2 (Nat.lt_irrefl _)
    · rintro ⟨⟨hne, hd | hd⟩, hn⟩
      · exact absurd hd hne
      · exact ⟨hd, hn⟩
  · intro u d hu hd
    obtain ⟨top, htop, -⟩ := hf.enclosingUnit?_eq_iff_held.mp hd
    simp [held_unit, hu] at htop
  · intro u v ids others visits visits' hne hu hv hw hw' d hd hd'
    have hdu := (hunit u ids visits hu hw d).mp hd
    have hdv := (hunit v others visits' hv hw' d).mp hd'
    exact hne (Option.some.inj (hdu.symm.trans hdv))
  · intro d top u ids visits hlast ho hu hw hd
    have hdu := (hunit u ids visits hu hw d).mp hd
    unfold enclosingUnit? at hdu
    rw [hlast, Option.bind_some, ho] at hdu
    simp at hdu

/-- From the package, the import and the class of the sample's unit the walk goes two levels down;
the package that was driven out and the constructor without an owner are not met. -/
theorem sample_walksMatchChains : sample.Reachable ∧ sample.WalksMatchChains ∧
    sample.allMembers ⟨0⟩ = .ok [⟨1⟩, ⟨7⟩, ⟨2⟩] ∧
    sample.enclosingUnit? ⟨6⟩ = some ⟨0⟩ ∧ sample.nestingLevel ⟨6⟩ = 2 ∧
    sample.enclosingUnit? ⟨0⟩ = none ∧ sample.enclosingUnit? ⟨8⟩ = none :=
  ⟨sample_reachable, reachable_walksMatchChains sample_reachable, by decide +kernel,
    by decide +kernel, by decide +kernel, by decide +kernel, by decide +kernel⟩

end DeclForest.Forest
