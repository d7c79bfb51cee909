import DeclForest.Proofs.Rendering
import DeclForest.Proofs.Shown

/-!
The text of a unit is made of its own tree. Rendering looks into the table of all declarations by
number, asks for owners again and goes into other units for the names of imported types; but it
never gets to a declaration that the unit does not enclose, so two forests that show the same tree
for a unit, and give the types it imports the same names, write it alike.
-/

namespace DeclForest

open Forest Source

def Content.importedType? : Content → Option DeclId
  | .typeImport target | .staticImport target _ =>
    match target.referent with
    | .defined id .. => some id
    | _ => none
  | _ => none

def Forest.importedTypes (f : Forest) (u : UnitId) : List DeclId :=
  (((f.unit? u).map fun unit => unit.imports ++ unit.staticImports).getD []).filterMap fun d =>
    (f.content? d).bind Content.importedType?

/-- The second forest has the same record for a unit as the first one, shows the same declarations
in its tree, and has the same names for the types it imports. -/
structure SameTree (f g : Forest) (u : UnitId) : Prop where
  unit : g.unit? u = f.unit? u
  declarations : ∀ d, f.enclosingUnit? d = some u →
    (g.get? d).map Declaration.shown = (f.get? d).map Declaration.shown
  names : ∀ t ∈ f.importedTypes u, g.qualifiedName t = f.qualifiedName t

theorem Forest.isSome_of_enclosingUnit? {f : Forest} {d : DeclId} {u : UnitId}
    (h : f.enclosingUnit? d = some u) : (f.get? d).isSome := by
  by_contra hn
  have hd : f.get? d = none := Option.not_isSome_iff_eq_none.mp hn
  have ho : f.owner? d = none := by simp [owner?, hd]
  have ha : f.ancestors d = [d] := by
    unfold ancestors
    cases f.decls.size <;> simp [ancestorsWithin, ho]
  simp [enclosingUnit?, ha, ho] at h

instance (f g : Forest) (u : UnitId) : Decidable (SameTree f g u) :=
  decidable_of_iff (g.unit? u = f.unit? u ∧
      (∀ i < f.decls.size, f.enclosingUnit? ⟨i⟩ = some u →
        (g.get? ⟨i⟩).map Declaration.shown = (f.get? ⟨i⟩).map Declaration.shown) ∧
      ∀ t ∈ f.importedTypes u, g.qualifiedName t = f.qualifiedName t)
    ⟨fun h => ⟨h.1, fun d hd => h.2.1 d.index
        (by simpa [get?] using isSome_of_enclosingUnit? hd) hd, h.2.2⟩,
      fun h => ⟨h.unit, fun i _ => h.declarations ⟨i⟩, h.names⟩⟩

namespace Forest.Invariant

variable {f : Forest} {d t : DeclId} {u : UnitId} (hf : f.Invariant)

include hf

theorem enclosingUnit?_of_ownedBy (ho : f.OwnedBy d t) :
    f.enclosingUnit? d = f.enclosingUnit? t := by
  obtain ⟨rest, ht⟩ := f.exists_ancestors_eq_cons t
  unfold enclosingUnit?
  rw [hf.ancestors_of_ownedBy ho, ht, List.getLast?_cons_cons]

theorem enclosingUnit?_of_owner? (ho : f.owner? d = some (.unit u)) :
    f.enclosingUnit? d = some u :=
  hf.enclosingUnit?_eq_some_iff.mpr ⟨d, .refl, ho⟩

theorem enclosingUnit?_of_mem {unit : CompilationUnit} (hu : f.unit? u = some unit)
    (hd : d ∈ unit.all) : f.enclosingUnit? d = some u :=
  hf.enclosingUnit?_of_owner? ((hf.owned d (.unit u)).mpr (mem_held_unit_iff.mpr ⟨unit, hu, hd⟩))

/-- No type holds an import. -/
theorem not_ownedBy_of_imports {target : Descriptor} (hi : Imports f d target) :
    ¬ f.OwnedBy d t := by
  intro ho
  obtain ⟨definition, ht, hm⟩ := hf.owner?_type_iff.mp ho
  obtain ⟨c, hc, hstand⟩ := hf.mayStandIn_of_mem ht hm
  rcases hi with hi | ⟨member, hi⟩ <;> obtain rfl := Option.some.inj (hc.symm.trans hi) <;>
    cases hk : definition.kind <;> simp [hk, Content.mayStandIn] at hstand

/-- An import is the end of its chain, so the unit around it is the one that lists it. -/
theorem mem_importedTypes {target : Descriptor} {name : String} {kind : TypeKind}
    (hd : f.enclosingUnit? d = some u) (hi : Imports f d target)
    (hr : target.referent = .defined t name kind) : t ∈ f.importedTypes u := by
  obtain ⟨top, htop, ho⟩ := hf.enclosingUnit?_eq_some_iff.mp hd
  obtain rfl | ⟨x, hx, -⟩ := Relation.ReflTransGen.cases_head htop
  · obtain ⟨unit, c, hu, hc, hm⟩ := hf.owner?_unit_iff.mp ho
    have hlisted : d ∈ unit.imports ++ unit.staticImports := by
      rcases hi with hi | ⟨member, hi⟩ <;> obtain rfl := Option.some.inj (hc.symm.trans hi)
      · exact List.mem_append_left _ hm
      · exact List.mem_append_right _ hm
    have htype : (f.content? d).bind Content.importedType? = some t := by
      rcases hi with hi | ⟨member, hi⟩ <;> simp [hi, Content.importedType?, hr]
    unfold importedTypes
    rw [hu]
    exact List.mem_filterMap.mpr ⟨d, hlisted, htype⟩
  · exact absurd hx (hf.not_ownedBy_of_imports hi)

end Forest.Invariant

namespace SameTree

variable {f g : Forest} {u : UnitId} {d t : DeclId} {x : Declaration}
  {render render' : DeclId → Except Fault (List Line)}

theorem get?_of_some (h : SameTree f g u) (hd : f.enclosingUnit? d = some u)
    (hx : f.get? d = some x) : ∃ y, g.get? d = some y ∧ y.shown = x.shown := by
  have hshown := h.declarations d hd
  rw [hx] at hshown
  exact Option.map_eq_some_iff.mp hshown

theorem get?_of_none (h : SameTree f g u) (hd : f.enclosingUnit? d = some u)
    (hx : f.get? d = none) : g.get? d = none := by
  have hshown := h.declarations d hd
  rw [hx] at hshown
  exact Option.map_eq_none_iff.mp hshown

theorem owner?_eq (h : SameTree f g u) (hd : f.enclosingUnit? d = some u) :
    g.owner? d = f.owner? d := by
  have howner : ∀ k : Forest, k.owner? d = ((k.get? d).map Declaration.shown).bind
      Declaration.owner := by
    intro k
    unfold owner?
    cases k.get? d <;> rfl
  rw [howner g, h.declarations d hd, howner f]

theorem describe_eq (h : SameTree f g u) (hd : f.enclosingUnit? d = some u) :
    g.describe d = f.describe d := by
  unfold describe
  cases hx : f.get? d with
  | none => rw [h.get?_of_none hd hx]
  | some x =>
    obtain ⟨y, hy, hshown⟩ := h.get?_of_some hd hx
    have hcontent : y.content.shown = x.content.shown := congrArg Declaration.content hshown
    simp only [hy]
    rw [← Content.describe_shown, hcontent, Content.describe_shown]

/-- A type that owns a declaration of the tree is a type of the same kind and name in both. -/
theorem exists_typeDefinition (h : SameTree f g u) (hf : f.Invariant)
    (hd : f.enclosingUnit? d = some u) (ho : f.OwnedBy d t) :
    ∃ a b, f.typeDefinition t = .ok a ∧ g.typeDefinition t = .ok b ∧ b.kind = a.kind ∧
      b.name = a.name := by
  have ht : f.enclosingUnit? t = some u := (hf.enclosingUnit?_of_ownedBy ho).symm.trans hd
  obtain ⟨a, ha⟩ := hf.exists_type?_of_ownedBy ho
  obtain ⟨o, k, hx⟩ := type?_eq_some_iff.mp ha
  obtain ⟨y, hy, hshown⟩ := h.get?_of_some ht hx
  have htype : y.content.type?.map TypeDefinition.shown = some a.shown := by
    rw [← Content.type?_shown]
    exact congrArg (fun z => z.content.type?) hshown
  obtain ⟨b, hb, hab⟩ := Option.map_eq_some_iff.mp htype
  have hgb : g.type? t = some b := by simp [type?, hy, hb]
  obtain ⟨hkind, hname, -⟩ := TypeDefinition.mk.inj hab
  exact ⟨a, b, typeDefinition_eq_ok_iff.mpr ha, typeDefinition_eq_ok_iff.mpr hgb, hkind, hname⟩

theorem importName_eq (h : SameTree f g u) (hf : f.Invariant) (hd : f.enclosingUnit? d = some u)
    {target : Descriptor} (hi : Imports f d target) :
    importName g target = importName f target := by
  unfold importName
  split
  · rename_i hr
    exact h.names _ (hf.mem_importedTypes hd hi hr)
  · rfl

theorem memberLines_eq (h : SameTree f g u) {ids : List DeclId}
    (hids : ∀ m ∈ ids, f.enclosingUnit? m = some u) (hr : ∀ m ∈ ids, render' m = render m)
    (before : Option Bool) :
    memberLines g render' before ids = memberLines f render before ids := by
  induction ids generalizing before with
  | nil => rfl
  | cons m ids ih =>
    have hrest := ih (fun x hx => hids x (List.mem_cons_of_mem m hx))
      fun x hx => hr x (List.mem_cons_of_mem m hx)
    have hm := hids m List.mem_cons_self
    cases hx : f.get? m with
    | none => simp [memberLines, declaration, hx, h.get?_of_none hm hx]
    | some x =>
      obtain ⟨y, hy, hshown⟩ := h.get?_of_some hm hx
      have hfield : y.content.isField = x.content.isField := by
        rw [← Content.isField_shown, ← Content.isField_shown x.content]
        exact congrArg (fun z => z.content.isField) hshown
      simp only [memberLines, declaration_eq_ok_iff.mpr hx, declaration_eq_ok_iff.mpr hy, ok_bind,
        hr m List.mem_cons_self, hfield, hrest]

/-- All that a content is written with beside itself is in the tree, or is a name it imports. -/
theorem contentLines_eq (h : SameTree f g u) (hf : f.Invariant)
    (hd : f.enclosingUnit? d = some u) (hx : f.get? d = some x)
    (hr : ∀ m ∈ x.content.members, render' m = render m) (level : Nat) :
    contentLines g render' d level x.content = contentLines f render d level x.content := by
  have himport : ∀ target, Imports f d target → importName g target = importName f target :=
    fun target => h.importName_eq hf hd
  have howner := h.owner?_eq hd
  have hcontent := content?_of_get? hx
  cases hc : x.content with
  | type t =>
    have hinside : ∀ m ∈ t.members, f.enclosingUnit? m = some u := by
      intro m hm
      have ho : f.OwnedBy m d := hf.ownedBy_of_mem_members hx (hc ▸ hm)
      exact (hf.enclosingUnit?_of_ownedBy ho).trans hd
    rw [hc] at hr
    simp only [contentLines, h.memberLines_eq hinside hr]
  | method m =>
    simp only [contentLines, owningType?, howner]
    cases ho : f.owner? d with
    | none => rfl
    | some o =>
      cases o with
      | unit v => rfl
      | type t =>
        obtain ⟨a, b, ha, hb, hkind, -⟩ := h.exists_typeDefinition hf hd ho
        simp [ha, hb, Except.map, hkind]
  | constructor c =>
    simp only [contentLines, howner, h.describe_eq hd]
    cases ho : f.owner? d with
    | none => rfl
    | some o =>
      cases o with
      | unit v => rfl
      | type t =>
        obtain ⟨a, b, ha, hb, -, hname⟩ := h.exists_typeDefinition hf hd ho
        simp [ha, hb, hname]
  | typeImport target =>
    simp only [contentLines, importText, himport target (.inl (hcontent.trans (by rw [hc])))]
  | staticImport target member =>
    simp only [contentLines, staticImportText,
      himport target (.inr ⟨member, hcontent.trans (by rw [hc])⟩)]
  | _ => rfl

/-- By induction on the bound, down the tree: whatever is met belongs to the unit as well. -/
theorem linesWithin_eq (h : SameTree f g u) (hf : f.Invariant) {n : Nat}
    (hd : f.enclosingUnit? d = some u) (level : Nat) :
    linesWithin g n d level = linesWithin f n d level := by
  induction n generalizing d level with
  | zero => rfl
  | succ n ih =>
    cases hx : f.get? d with
    | none => simp [linesWithin, declaration, hx, h.get?_of_none hd hx]
    | some x =>
      obtain ⟨y, hy, hshown⟩ := h.get?_of_some hd hx
      obtain ⟨hcontent, -, hcomments⟩ := Declaration.mk.inj hshown
      have hm : ∀ m ∈ x.content.members,
          linesWithin g n m (level + 1) = linesWithin f n m (level + 1) := by
        intro m hm
        have ho : f.OwnedBy m d := hf.ownedBy_of_mem_members hx hm
        exact ih ((hf.enclosingUnit?_of_ownedBy ho).trans hd) (level + 1)
      rw [linesWithin, linesWithin, declaration_eq_ok_iff.mpr hx, declaration_eq_ok_iff.mpr hy,
        ok_bind, ok_bind, hcomments, ← contentLines_shown, hcontent, contentLines_shown,
        h.contentLines_eq hf hd hx hm]

theorem lines_eq (h : SameTree f g u) (hf : f.Invariant) (hg : g.Invariant)
    (hd : f.enclosingUnit? d = some u) (level : Nat) : lines g d level = lines f d level := by
  have hbound : lines f d level = linesWithin f (g.decls.size + f.decls.size + 1) d level :=
    Source.linesWithin_eq hf level (by omega) (by omega)
  have hbound' : lines g d level = linesWithin g (g.decls.size + f.decls.size + 1) d level :=
    Source.linesWithin_eq hg level (by omega) (by omega)
  rw [hbound, hbound', h.linesWithin_eq hf hd]

theorem bodyLines_eq {ids : List DeclId} (h : ∀ t ∈ ids, lines g t 0 = lines f t 0) :
    bodyLines g ids = bodyLines f ids := by
  induction ids with
  | nil => rfl
  | cons t ids ih =>
    have ht := h t List.mem_cons_self
    have hrest := ih fun x hx => h x (List.mem_cons_of_mem t hx)
    cases ids with
    | nil => exact ht
    | cons next rest => simp only [bodyLines, ht, hrest]

theorem packageSection_eq (h : SameTree f g u) {unit : CompilationUnit}
    (hids : ∀ p, unit.package = some p → f.enclosingUnit? p = some u) :
    packageSection g unit = packageSection f unit := by
  unfold packageSection
  cases hp : unit.package with
  | none => rfl
  | some p =>
    have hin := hids p hp
    cases hx : f.get? p with
    | none => simp [declaration, hx, h.get?_of_none hin hx]
    | some x =>
      obtain ⟨y, hy, hshown⟩ := h.get?_of_some hin hx
      have hcontent : y.content.shown = x.content.shown := congrArg Declaration.content hshown
      simp only [declaration_eq_ok_iff.mpr hx, declaration_eq_ok_iff.mpr hy, ok_bind]
      cases hyc : y.content <;> cases hxc : x.content <;> simp_all [Content.shown]

theorem filterMapM_congr {step step' : DeclId → Except Fault (Option String)} {ids : List DeclId}
    (h : ∀ d ∈ ids, step' d = step d) : ids.filterMapM step' = ids.filterMapM step := by
  induction ids with
  | nil => rfl
  | cons d ids ih =>
    rw [List.filterMapM_cons, List.filterMapM_cons, h d List.mem_cons_self,
      ih fun x hx => h x (List.mem_cons_of_mem d hx)]

/-- A section of imports is the same if the line of each import is. -/
theorem importSection_eq (h : SameTree f g u)
    {line? : Forest → Content → Except Fault (Option String)} {ids : List DeclId}
    (hids : ∀ d ∈ ids, f.enclosingUnit? d = some u)
    (hshown : ∀ c : Content, line? g c.shown = line? g c)
    (hline : ∀ d ∈ ids, ∀ c, f.content? d = some c → line? g c = line? f c) :
    importSection g (line? g) ids = importSection f (line? f) ids := by
  have hstep : ids.filterMapM (fun d => (do line? g (← g.declaration d).content)) =
      ids.filterMapM fun d => (do line? f (← f.declaration d).content) := by
    apply filterMapM_congr
    intro d hd
    cases hx : f.get? d with
    | none => simp [declaration, hx, h.get?_of_none (hids d hd) hx]
    | some x =>
      obtain ⟨y, hy, hshow⟩ := h.get?_of_some (hids d hd) hx
      have hcontent : y.content.shown = x.content.shown := congrArg Declaration.content hshow
      rw [declaration_eq_ok_iff.mpr hx, declaration_eq_ok_iff.mpr hy, ok_bind, ok_bind, ← hshown,
        hcontent, hshown, hline d hd _ (content?_of_get? hx)]
  unfold importSection
  rw [hstep]

theorem imports_eq (h : SameTree f g u) (hf : f.Invariant) {ids : List DeclId}
    (hids : ∀ d ∈ ids, f.enclosingUnit? d = some u) :
    importSection g (typeImportText? g) ids = importSection f (typeImportText? f) ids := by
  refine h.importSection_eq hids (typeImportText?_shown g) fun d hd c hc => ?_
  cases c with
  | typeImport target =>
    simp only [typeImportText?, importText, h.importName_eq hf (hids d hd) (.inl hc)]
  | _ => rfl

theorem staticImports_eq (h : SameTree f g u) (hf : f.Invariant) {ids : List DeclId}
    (hids : ∀ d ∈ ids, f.enclosingUnit? d = some u) :
    importSection g (staticImportText? g) ids = importSection f (staticImportText? f) ids := by
  refine h.importSection_eq hids (staticImportText?_shown g) fun d hd c hc => ?_
  cases c with
  | staticImport target member =>
    simp only [staticImportText?, staticImportText,
      h.importName_eq hf (hids d hd) (.inr ⟨member, hc⟩)]
  | _ => rfl

/-- Forests with the same tree for a unit write it alike, or fail alike. -/
theorem generate_eq (h : SameTree f g u) (hf : f.Invariant) (hg : g.Invariant) :
    generate g u = generate f u := by
  have hunit : g.unit u = f.unit u := by
    unfold Forest.unit
    rw [h.unit]
  unfold generate
  rw [hunit]
  cases hu : f.unit u with
  | error fault => rfl
  | ok unit =>
    have hin : ∀ d ∈ unit.all, f.enclosingUnit? d = some u := fun d =>
      hf.enclosingUnit?_of_mem (unit_eq_ok_iff.mp hu)
    simp only [CompilationUnit.all, List.mem_append, Option.mem_toList] at hin
    have hpackage : packageSection g unit = packageSection f unit :=
      h.packageSection_eq fun p hp => hin p (by simp [hp])
    have himports := h.imports_eq hf fun d (hd : d ∈ unit.imports) => hin d (by simp [hd])
    have hstatics := h.staticImports_eq hf
      fun d (hd : d ∈ unit.staticImports) => hin d (by simp [hd])
    have hbody : bodyLines g unit.types = bodyLines f unit.types :=
      bodyLines_eq fun t ht => h.lines_eq hf hg (hin t (by simp [ht])) 0
    simp only [ok_bind, himports, hstatics, hbody, hpackage]

end SameTree

theorem Forest.Reachable.after {f : Forest} (h : f.Reachable) (ops : List Operation) :
    (f.after ops).Reachable := by
  obtain ⟨number, before, rfl⟩ := h
  exact ⟨number, before ++ ops, List.foldl_append⟩

namespace Source

variable {f : Forest}

/-- What the text of a unit depends on: nothing but its own tree and the names of what it imports,
in the same forest at another time as well as in any other one. -/
structure TextIsLocal (f : Forest) : Prop where
  sameTree : ∀ g u, g.Reachable → SameTree f g u → generate g u = generate f u
  operation : ∀ (op : Operation) u, (op.perform f).2.unit? u = f.unit? u →
    (∀ d, f.enclosingUnit? d = some u → (op.perform f).2.get? d = f.get? d) →
    (∀ t ∈ f.importedTypes u, (op.perform f).2.qualifiedName t = f.qualifiedName t) →
    generate (op.perform f).2 u = generate f u

theorem reachable_textIsLocal (h : f.Reachable) : TextIsLocal f where
  sameTree _ _ hg htree := htree.generate_eq (reachable_invariant h) (reachable_invariant hg)
  operation op u hunit hdecls hnames := by
    have htree : SameTree f (op.perform f).2 u :=
      ⟨hunit, fun d hd => congrArg (Option.map Declaration.shown) (hdecls d hd), hnames⟩
    exact htree.generate_eq (reachable_invariant h) (reachable_invariant (h.after [op]))

/-- A class in another unit, a descriptor that is issued, and a fork with a comment on what no unit
encloses: the first unit of the sample is written as before. -/
def elsewhere : List Operation :=
  [.newUnit, .setPackage ⟨1⟩ "c", .declare (.type (.ofName .classKind "E")), .addToUnit ⟨1⟩ ⟨10⟩,
   .definedType ⟨3⟩, .fork 1, .setDoc ⟨8⟩ "nobody's"]

theorem sample_textIsLocal : sample.Reachable ∧ TextIsLocal sample ∧
    sample.importedTypes ⟨0⟩ = [⟨3⟩] ∧
    (sample.after elsewhere).owner? ⟨10⟩ = some (.unit ⟨1⟩) ∧
    generate (sample.after elsewhere) ⟨0⟩ = generate sample ⟨0⟩ := by
  have hlocal := reachable_textIsLocal sample_reachable
  have hreach := sample_reachable.after elsewhere
  have htree : SameTree sample (sample.after elsewhere) ⟨0⟩ := by decide +kernel
  exact ⟨sample_reachable, hlocal, by decide +kernel, by decide +kernel,
    hlocal.sameTree _ ⟨0⟩ hreach htree⟩

end Source

end DeclForest
