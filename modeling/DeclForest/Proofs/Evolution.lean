import DeclForest.Proofs.Outcome

/-!
What time does to a forest. Declarations are never taken away and never become others; but for
packages an owner is for good, and what is listed keeps its place in front of what is listed later.
-/

namespace DeclForest

namespace Content

theorem lasting_eq_package_iff {c : Content} {name : String} :
    c.lasting = .package name ↔ c = .package name := by
  cases c <;> simp [lasting]

end Content

theorem CompilationUnit.collection_isPrefix_hold {c : Content} (hc : ∀ name, c ≠ .package name)
    (u : CompilationUnit) (id : DeclId) (added : Content) :
    u.collection c <+: (u.hold id added).collection c := by
  have hadd : ∀ ids : List DeclId, ids <+: addUnique ids id := by
    intro ids
    unfold addUnique
    split
    · exact List.prefix_rfl
    · exact List.prefix_append ids [id]
  cases c with
  | package name => exact absurd rfl (hc name)
  | typeImport target => cases added <;> simp [collection, hold, hadd]
  | staticImport target member => cases added <;> simp [collection, hold, hadd]
  | type t => cases added <;> simp [collection, hold, hadd]
  | _ => exact List.prefix_rfl

namespace Forest

variable {f g k : Forest} {id d : DeclId} {u : UnitId} {o : Owner} {x : Declaration}
  {kind : OwnerKind} {P : Content → Prop}

structure EvolvesTo (f g : Forest) : Prop where
  declaration : ∀ d x, f.get? d = some x →
    ∃ y, g.get? d = some y ∧ y.content.lasting = x.content.lasting
  owner : ∀ d x o, f.get? d = some x → (∀ name, x.content ≠ .package name) → x.owner = some o →
    g.owner? d = some o
  members : ∀ t definition, f.type? t = some definition →
    ∃ later, g.type? t = some later ∧ definition.members <+: later.members
  unit : ∀ u unit, f.unit? u = some unit → ∃ later, g.unit? u = some later ∧
    unit.imports <+: later.imports ∧ unit.staticImports <+: later.staticImports ∧
    unit.types <+: later.types

theorem EvolvesTo.refl (f : Forest) : f.EvolvesTo f where
  declaration _ x hx := ⟨x, hx, rfl⟩
  owner d x o hx _ ho := by simp [owner?, hx, ho]
  members _ definition ht := ⟨definition, ht, List.prefix_rfl⟩
  unit _ unit hu := ⟨unit, hu, List.prefix_rfl, List.prefix_rfl, List.prefix_rfl⟩

theorem EvolvesTo.trans (hfg : f.EvolvesTo g) (hgk : g.EvolvesTo k) : f.EvolvesTo k := by
  constructor
  · intro d x hx
    obtain ⟨y, hy, hyx⟩ := hfg.declaration d x hx
    obtain ⟨z, hz, hzy⟩ := hgk.declaration d y hy
    exact ⟨z, hz, hzy.trans hyx⟩
  · intro d x o hx hp ho
    obtain ⟨y, hy, hyx⟩ := hfg.declaration d x hx
    have hyp : ∀ name, y.content ≠ .package name := by
      intro name hname
      rw [← Content.lasting_eq_package_iff, hyx, Content.lasting_eq_package_iff] at hname
      exact hp name hname
    have hyo := hfg.owner d x o hx hp ho
    rw [owner?, hy] at hyo
    exact hgk.owner d y o hy hyp hyo
  · intro t definition ht
    obtain ⟨later, hl, hprefix⟩ := hfg.members t definition ht
    obtain ⟨last, hlast, hprefix'⟩ := hgk.members t later hl
    exact ⟨last, hlast, hprefix.trans hprefix'⟩
  · intro u unit hu
    obtain ⟨later, hl, hi, hs, ht⟩ := hfg.unit u unit hu
    obtain ⟨last, hlast, hi', hs', ht'⟩ := hgk.unit u later hl
    exact ⟨last, hlast, hi.trans hi', hs.trans hs', ht.trans ht'⟩

/-- In a unit a package gives way to a package only. -/
theorem Invariant.content?_of_replaced (hf : f.Invariant) (ha : f.Admissible id o x kind)
    {previous : DeclId} (hr : f.replaced? id o = some previous) :
    ∃ name, f.content? previous = some (.package name) := by
  rw [hf.replaced?_eq_slot? ha] at hr
  cases o with
  | type t => simp [slot?] at hr
  | unit u =>
    unfold slot? at hr
    split at hr
    · obtain ⟨unit, hu, hp⟩ := Option.bind_eq_some_iff.mp hr
      simp_all only [Owner.unit.injEq]
      exact (hf.content_of_mem_unit hu).1 hp
    · simp at hr

theorem Invariant.owner?_of_change (hf : f.Invariant) (hc : Change P f g)
    (hx : f.get? d = some x) (hp : ∀ name, x.content ≠ .package name) (ho : x.owner = some o) :
    g.owner? d = some o := by
  have hd : f.owner? d = some o := by simp [owner?, hx, ho]
  rcases hc.sameViews_or_attach with hs | ⟨id, o', y, kind, ha, rfl⟩
  · rw [hs.owner, hd]
  · have hne : d ≠ id := by
      rintro rfl
      exact absurd (hd.symm.trans ha.owner?_eq_none) (by simp)
    have hstay : f.replaced? id o' ≠ some d := by
      intro hr
      obtain ⟨name, hname⟩ := hf.content?_of_replaced ha hr
      rw [content?_of_get? hx] at hname
      exact hp name (Option.some.inj hname)
    rw [ha.owner?_attach, if_neg hne, if_neg hstay, hd]

theorem Invariant.held_type_isPrefix (hf : f.Invariant) (hc : Change P f g) (t : DeclId) :
    f.held (.type t) <+: g.held (.type t) := by
  rcases hc.sameViews_or_attach with hs | ⟨id, o, y, kind, ha, rfl⟩
  · exact hs.held (.type t) ▸ List.prefix_rfl
  · cases ho : o with
    | type parent =>
      have hn := hf.not_mem_held ha.owner?_eq_none o
      rw [← ho, ha.held_attach_type ho hn]
      split
      · exact List.prefix_append _ _
      · exact List.prefix_rfl
    | unit u =>
      have hsame : (f.attach id o).held (.type t) = f.held (.type t) := by
        rw [ha.held_attach_unit ho, if_neg (by simp [ho])]
      exact ⟨[], by rw [List.append_nil, ← ho, hsame]⟩

theorem Change.collection_isPrefix (hc : Change P f g) (u : UnitId) {c : Content}
    (hp : ∀ name, c ≠ .package name) : f.collection u c <+: g.collection u c := by
  rcases hc.sameViews_or_attach with hs | ⟨id, o, y, kind, ha, rfl⟩
  · exact hs.collection u c ▸ List.prefix_rfl
  · cases ho : o with
    | type parent => exact List.prefix_rfl
    | unit v =>
      unfold collection
      rw [← ho, ha.unit?_attach ho]
      cases f.unit? u with
      | none => simp
      | some unit =>
        by_cases huv : u = v
        · simpa [huv] using unit.collection_isPrefix_hold hp id y.content
        · simp [huv]

/-- One change brings a forest into a later state. -/
theorem Change.evolvesTo (hf : f.Invariant) (hc : Change P f g) : f.EvolvesTo g := by
  constructor
  · intro d x hx
    exact exists_get?_of_lasting? (hc.lasting (lasting?_of_get? hx))
  · intro d x o hx hp ho
    exact hf.owner?_of_change hc hx hp ho
  · intro t definition ht
    have hl := hc.lasting (lasting?_eq_type_iff.mpr ⟨definition, ht, rfl, rfl⟩)
    obtain ⟨later, hlater, -, -⟩ := lasting?_eq_type_iff.mp hl
    have hprefix := hf.held_type_isPrefix hc t
    rw [held_type_of_type? ht, held_type_of_type? hlater] at hprefix
    exact ⟨later, hlater, hprefix⟩
  · intro u unit hu
    have hsome := hc.isSome_unit? (u := u) (by simp [hu])
    obtain ⟨later, hlater⟩ := Option.isSome_iff_exists.mp hsome
    have hlist : ∀ c, (∀ name, c ≠ .package name) → unit.collection c <+: later.collection c := by
      intro c hp
      have hprefix := hc.collection_isPrefix u hp
      simpa [collection, hu, hlater] using hprefix
    exact ⟨later, hlater, hlist (.typeImport ⟨0, .primitive .int⟩) (by simp),
      hlist (.staticImport ⟨0, .primitive .int⟩ "") (by simp),
      hlist (.type (.ofName .classKind "")) (by simp)⟩

/-- By induction on the changes, with the invariant carried along. -/
theorem Invariant.evolvesTo_after (hf : f.Invariant) (ops : List Operation) :
    f.EvolvesTo (f.after ops) := by
  have hboth : (f.after ops).Invariant ∧ f.EvolvesTo (f.after ops) := by
    refine Changes.keep (I := fun g => g.Invariant ∧ f.EvolvesTo g) ?_ (after_changes f ops)
      ⟨hf, .refl f⟩
    intro g k hc hg
    exact ⟨hc.invariant hg.1, hg.2.trans (hc.evolvesTo hg.1)⟩
  exact hboth.2

end Forest

end DeclForest
