import DeclForest.Proofs.Evolution
import DeclForest.Proofs.PackageSlot

/-!
Ownership and order are stable. What becomes of a forest is a later state of it, and its lists name
nothing twice. A package is the one kind of declaration that can lose its owner, to the package that
takes its slot.
-/

namespace DeclForest.Forest

variable {f g : Forest} {d : DeclId} {u : UnitId}

/-- The owner of a package is the unit whose slot it is in. -/
theorem Invariant.owner?_package_iff (hf : f.Invariant) {name : String}
    (hd : f.content? d = some (.package name)) {o : Owner} :
    f.owner? d = some o ↔ ∃ u, o = .unit u ∧ f.packageSlot? u = some d := by
  cases o with
  | type t =>
    simp only [reduceCtorEq, false_and, exists_false, iff_false]
    intro ho
    obtain ⟨definition, ht, hm⟩ := hf.owner?_type_iff.mp ho
    obtain ⟨c, hc, hstand⟩ := hf.mayStandIn_of_mem ht hm
    obtain rfl := Option.some.inj (hd.symm.trans hc)
    cases hk : definition.kind <;> simp [hk, Content.mayStandIn] at hstand
  | unit u =>
    simp only [Owner.unit.injEq, exists_eq_left', packageSlot?, Option.bind_eq_some_iff]
    constructor
    · intro ho
      obtain ⟨unit, c, hu, hc, hm⟩ := hf.owner?_unit_iff.mp ho
      obtain rfl := Option.some.inj (hd.symm.trans hc)
      exact ⟨unit, hu, by simpa [CompilationUnit.collection] using hm⟩
    · rintro ⟨unit, hu, hp⟩
      exact hf.owner?_unit_iff.mpr
        ⟨unit, .package name, hu, hd, by simp [CompilationUnit.collection, hp]⟩

/-- How the owner of a package may change from `f` to `g`, where `place` is being installed. -/
structure PackageMoves (f : Forest) (place : Option (DeclId × UnitId)) (g : Forest) : Prop where
  changed : ∀ d name, g.content? d = some (.package name) → g.owner? d ≠ f.owner? d →
    (∃ u, f.owner? d = none ∧ g.owner? d = some (.unit u) ∧ place = some (d, u)) ∨
    ∃ u, f.owner? d = some (.unit u) ∧ g.owner? d = none
  /-- A package is driven out by the one that comes into its slot, and by nothing else. -/
  drivenOut : ∀ d name u, f.content? d = some (.package name) → f.owner? d = some (.unit u) →
    (g.owner? d = none ↔ ∃ other, other ≠ d ∧ g.packageSlot? u = some other)

theorem Invariant.content?_of_packageSlot? (hf : f.Invariant) (h : f.packageSlot? u = some d) :
    ∃ name, f.content? d = some (.package name) := by
  obtain ⟨unit, hu, hp⟩ := Option.bind_eq_some_iff.mp h
  exact (hf.content_of_mem_unit hu).1 hp

theorem Invariant.owner?_of_packageSlot? (hf : f.Invariant) (h : f.packageSlot? u = some d) :
    f.owner? d = some (.unit u) := by
  obtain ⟨name, hname⟩ := hf.content?_of_packageSlot? h
  exact (hf.owner?_package_iff hname).mpr ⟨u, rfl, h⟩

theorem FillsAtMost.packageSlot?_before {place : Option (DeclId × UnitId)}
    (h : f.FillsAtMost place g) (hg : g.packageSlot? u = some d) :
    f.packageSlot? u = some d ∨ (place = some (d, u) ∧ f.owner? d = none) := by
  rcases h with hsame | ⟨id, v, hplace, hfree, hslots⟩
  · exact .inl (hsame ▸ hg)
  · rw [hslots] at hg
    by_cases huv : u = v
    · rw [if_pos huv] at hg
      obtain rfl := Option.some.inj hg
      exact .inr ⟨huv ▸ hplace, hfree⟩
    · rw [if_neg huv] at hg
      exact .inl hg

theorem FillsAtMost.packageSlot?_after {place : Option (DeclId × UnitId)}
    (h : f.FillsAtMost place g) (hu : f.packageSlot? u = some d) :
    g.packageSlot? u = some d ∨ ∃ other, g.packageSlot? u = some other ∧ f.owner? other = none := by
  rcases h with hsame | ⟨id, v, -, hfree, hslots⟩
  · exact .inl (hsame ▸ hu)
  · by_cases huv : u = v
    · exact .inr ⟨id, by rw [hslots, if_pos huv], hfree⟩
    · exact .inl (by rw [hslots, if_neg huv, hu])

theorem content?_eq_package_of_lasting
    (hlasting : ∀ d c, f.lasting? d = some c → g.lasting? d = some c) {name : String}
    (h : f.content? d = some (.package name)) : g.content? d = some (.package name) := by
  have hl := hlasting d (.package name) (by simp [lasting?, h, Content.lasting])
  obtain ⟨x, hx, hc⟩ := exists_get?_of_lasting? hl
  rw [content?_of_get? hx, Content.lasting_eq_package_iff.mp hc]

/-- What is a package now and was there before was a package then. -/
theorem content?_eq_package_before
    (hlasting : ∀ d c, f.lasting? d = some c → g.lasting? d = some c) {name : String} {o : Owner}
    (h : g.content? d = some (.package name)) (ho : f.owner? d = some o) :
    f.content? d = some (.package name) := by
  obtain ⟨c, hc⟩ := exists_lasting?_of_owner? ho
  obtain ⟨x, hx, rfl⟩ := exists_get?_of_lasting? hc
  have hl := hlasting d _ hc
  rw [lasting?, h] at hl
  rw [content?_of_get? hx, Content.lasting_eq_package_iff.mp (Option.some.inj hl).symm]

theorem Invariant.packageMoves (hf : f.Invariant) (hg : g.Invariant)
    (hlasting : ∀ d c, f.lasting? d = some c → g.lasting? d = some c)
    {place : Option (DeclId × UnitId)} (hfills : f.FillsAtMost place g) :
    f.PackageMoves place g := by
  constructor
  · intro d name hname hne
    cases hafter : g.owner? d with
    | none =>
      obtain ⟨o, ho⟩ := Option.ne_none_iff_exists'.mp (fun h => hne (hafter.trans h.symm))
      have hpackage := content?_eq_package_before hlasting hname ho
      obtain ⟨u, rfl, -⟩ := (hf.owner?_package_iff hpackage).mp ho
      exact .inr ⟨u, ho, rfl⟩
    | some o =>
      obtain ⟨u, rfl, hslot⟩ := (hg.owner?_package_iff hname).mp hafter
      rcases hfills.packageSlot?_before hslot with hbefore | ⟨hplace, hfree⟩
      · exact absurd (hafter.trans (hf.owner?_of_packageSlot? hbefore).symm) hne
      · exact .inl ⟨u, hfree, rfl, hplace⟩
  · intro d name u hname ho
    obtain ⟨v, hv, hslot⟩ := (hf.owner?_package_iff hname).mp ho
    obtain rfl := Owner.unit.inj hv
    constructor
    · intro hout
      rcases hfills.packageSlot?_after hslot with hstill | ⟨other, hother, hfree⟩
      · exact absurd ((hg.owner?_of_packageSlot? hstill).symm.trans hout) (by simp)
      · refine ⟨other, ?_, hother⟩
        rintro rfl
        exact absurd (ho.symm.trans hfree) (by simp)
    · rintro ⟨other, hne, hother⟩
      by_contra hsome
      obtain ⟨o, hafter⟩ := Option.ne_none_iff_exists'.mp hsome
      have hpackage := content?_eq_package_of_lasting hlasting hname
      obtain ⟨w, rfl, hw⟩ := (hg.owner?_package_iff hpackage).mp hafter
      -- the package is in a slot later on, so in the same slot before, where the other one is
      rcases hfills.packageSlot?_before hw with hbefore | ⟨-, hfree⟩
      · obtain rfl : u = w :=
          Owner.unit.inj (Option.some.inj (ho.symm.trans (hf.owner?_of_packageSlot? hbefore)))
        exact hne (Option.some.inj (hother.symm.trans hw))
      · exact absurd (ho.symm.trans hfree) (by simp)

structure StableFrom (f : Forest) : Prop where
  later : ∀ ops, f.EvolvesTo (f.after ops)
  distinct : ∀ ops o, ((f.after ops).held o).Nodup
  step : ∀ op, f.PackageMoves (op.installs f) (f.after [op])

theorem reachable_stableFrom (h : f.Reachable) : f.StableFrom := by
  have hf := reachable_invariant h
  have hafter : ∀ ops, (f.after ops).Invariant :=
    fun ops => Changes.keep Change.invariant (after_changes f ops) hf
  constructor
  · exact fun ops => hf.evolvesTo_after ops
  · exact fun ops => (hafter ops).nodup
  · intro op
    exact hf.packageMoves (hafter [op]) (fun d c => lasting?_after [op]) (f.perform_fillsAtMost op)

/-- The package that was driven out comes back, and the one in its slot goes. -/
theorem sample_stableFrom :
    sample.Reachable ∧ sample.owner? ⟨1⟩ = some (.unit ⟨0⟩) ∧
      (sample.after [.setPackageDefinition ⟨0⟩ ⟨0⟩]).packageSlot? ⟨0⟩ = some ⟨0⟩ ∧
      (sample.after [.setPackageDefinition ⟨0⟩ ⟨0⟩]).owner? ⟨1⟩ = none := by
  have howner : sample.owner? ⟨1⟩ = some (.unit ⟨0⟩) := by decide +kernel
  have hslot : (sample.after [.setPackageDefinition ⟨0⟩ ⟨0⟩]).packageSlot? ⟨0⟩ = some ⟨0⟩ := by
    decide +kernel
  have hname : sample.content? ⟨1⟩ = some (.package "b") := by decide +kernel
  have hmoves := (reachable_stableFrom sample_reachable).step (.setPackageDefinition ⟨0⟩ ⟨0⟩)
  exact ⟨sample_reachable, howner, hslot,
    (hmoves.drivenOut ⟨1⟩ "b" ⟨0⟩ hname howner).mpr ⟨⟨0⟩, by decide, hslot⟩⟩

end DeclForest.Forest
