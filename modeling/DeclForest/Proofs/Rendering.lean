import DeclForest.Proofs.Ancestry
import DeclForest.Proofs.Issuing
import DeclForest.Proofs.Ownership
import DeclForest.Source.Render

/-!
Rendering of a reachable forest. The descent into members ends by itself, so the bound of `lines` is
never seen, and no look-up below a type fails. What cannot be written is what is not there, a
constructor that no type owns, and an import of what is no type.
-/

namespace DeclForest.Source

open Forest

variable {f : Forest} {d : DeclId} {fault : Fault} {render render' : DeclId → Except Fault (List Line)}

private theorem memberLines_congr {ids : List DeclId} (h : ∀ m ∈ ids, render m = render' m)
    (before : Option Bool) : memberLines f render before ids = memberLines f render' before ids := by
  induction ids generalizing before with
  | nil => rfl
  | cons m ids ih =>
    have hrest := ih fun x hx => h x (List.mem_cons_of_mem m hx)
    simp only [memberLines, h m List.mem_cons_self, hrest]

/-- Only the members of a type are handed to `render`. -/
private theorem contentLines_congr {c : Content} (h : ∀ m ∈ c.members, render m = render' m)
    (id : DeclId) (level : Nat) :
    contentLines f render id level c = contentLines f render' id level c := by
  cases c with
  | type t => simp only [contentLines, memberLines_congr (show ∀ m ∈ t.members, _ from h)]
  | _ => rfl

/-- Any bound beyond the levels below a declaration gives the same lines. -/
theorem linesWithin_eq (hf : f.Invariant) {n k : Nat} (level : Nat)
    (hn : f.decls.size < n + f.nestingLevel d) (hk : f.decls.size < k + f.nestingLevel d) :
    linesWithin f n d level = linesWithin f k d level := by
  induction n generalizing k d level with
  | zero =>
    have := hf.nestingLevel_le d
    omega
  | succ n ih =>
    cases k with
    | zero =>
      have := hf.nestingLevel_le d
      omega
    | succ k =>
      cases hx : f.get? d with
      | none => simp [linesWithin, declaration, hx]
      | some x =>
        have hm : ∀ m ∈ x.content.members,
            linesWithin f n m (level + 1) = linesWithin f k m (level + 1) := by
          intro m hm
          have hl := hf.nestingLevel_of_ownedBy (hf.ownedBy_of_mem_members hx hm)
          exact ih (level + 1) (by omega) (by omega)
        rw [linesWithin, linesWithin, declaration_eq_ok_iff.mpr hx, ok_bind, ok_bind,
          contentLines_congr hm]

theorem lines_of_none (h : f.get? d = none) (level : Nat) :
    lines f d level = .error (.unknownDeclaration d.display) := by
  simp [lines, linesWithin, declaration, h]

/-- The descent without its bound. -/
theorem lines_eq (hf : f.Invariant) {x : Declaration} (hx : f.get? d = some x) (level : Nat) :
    lines f d level =
      (contentLines f (fun m => lines f m (level + 1)) d level x.content).map
        (commentLines level x.comments ++ ·) := by
  have hm : ∀ m ∈ x.content.members,
      linesWithin f f.decls.size m (level + 1) = lines f m (level + 1) := by
    intro m hm
    have hl := hf.nestingLevel_of_ownedBy (hf.ownedBy_of_mem_members hx hm)
    exact linesWithin_eq hf (level + 1) (by omega) (by omega)
  rw [lines, linesWithin, declaration_eq_ok_iff.mpr hx, ok_bind, contentLines_congr hm]
  cases contentLines f (fun m => lines f m (level + 1)) d level x.content <;> rfl

def Imports (f : Forest) (d : DeclId) (target : Descriptor) : Prop :=
  f.content? d = some (.typeImport target) ∨
    ∃ member, f.content? d = some (.staticImport target member)

/-- A target that is said to be defined here but is no type of the forest. -/
inductive Unresolvable (f : Forest) (target : Descriptor) : Fault → Prop where
  | absent {id : DeclId} {name : String} {kind : TypeKind} :
      target.referent = .defined id name kind → f.get? id = none →
      Unresolvable f target (.unknownDeclaration id.display)
  | noType {id : DeclId} {name : String} {kind : TypeKind} {x : Declaration} :
      target.referent = .defined id name kind → f.get? id = some x → x.content.type? = none →
      Unresolvable f target
        (.illegalOwner (f.describe id) "a member position that requires a type")

inductive Unwritable (f : Forest) (d : DeclId) : Fault → Prop where
  | absent : f.get? d = none → Unwritable f d (.unknownDeclaration d.display)
  | detached {c : Constructor} : f.content? d = some (.constructor c) →
      (∀ t, ¬ f.OwnedBy d t) → Unwritable f d (.detachedDeclaration (f.describe d))
  | target {target : Descriptor} {fault : Fault} : Imports f d target →
      Unresolvable f target fault → Unwritable f d fault

theorem unresolvable_iff {target : Descriptor} {id : DeclId} {name : String} {kind : TypeKind}
    (h : target.referent = .defined id name kind) :
    Unresolvable f target fault ↔ f.typeDefinition id = .error fault := by
  rw [typeDefinition_eq_error_iff]
  constructor
  · rintro (⟨hr, hid⟩ | ⟨hr, hx, ht⟩)
    · obtain ⟨rfl, -, -⟩ := Referent.defined.inj (h.symm.trans hr)
      exact .inl ⟨hid, rfl⟩
    · obtain ⟨rfl, -, -⟩ := Referent.defined.inj (h.symm.trans hr)
      exact .inr ⟨_, hx, ht, rfl⟩
  · rintro (⟨hid, rfl⟩ | ⟨x, hx, ht, rfl⟩)
    · exact .absent h hid
    · exact .noType h hx ht

theorem importName_eq_error_iff (hf : f.Invariant) {target : Descriptor} :
    importName f target = .error fault ↔ Unresolvable f target fault := by
  unfold importName
  split
  · rename_i id name kind hr
    rw [hf.qualifiedName_eq_error_iff, unresolvable_iff hr]
  · rename_i hr
    constructor
    · simp
    · rintro (⟨h, -⟩ | ⟨h, -, -⟩) <;> exact absurd h (hr _ _ _)

theorem not_unwritable_of_ownedBy (hf : f.Invariant) {t : DeclId} (h : f.OwnedBy d t) :
    ¬ Unwritable f d fault := by
  obtain ⟨definition, ht, hm⟩ := hf.owner?_type_iff.mp h
  obtain ⟨c, hc, hstand⟩ := hf.mayStandIn_of_mem ht hm
  rintro (hd | ⟨-, hn⟩ | ⟨hi, -⟩)
  · simp [content?, hd] at hc
  · exact hn t h
  · have hnot : c.mayStandIn definition.kind = false := by
      rcases hi with hi | ⟨member, hi⟩ <;> obtain rfl := Option.some.inj (hc.symm.trans hi) <;>
        cases definition.kind <;> rfl
    exact absurd hstand (by simp [hnot])

private theorem exists_memberLines {ids : List DeclId}
    (h : ∀ m ∈ ids, (∃ x, f.get? m = some x) ∧ ∃ ls, render m = .ok ls) (before : Option Bool) :
    ∃ ls, memberLines f render before ids = .ok ls := by
  induction ids generalizing before with
  | nil => exact ⟨[], rfl⟩
  | cons m ids ih =>
    obtain ⟨⟨x, hx⟩, own, ho⟩ := h m List.mem_cons_self
    obtain ⟨others, hr⟩ := ih (fun y hy => h y (List.mem_cons_of_mem m hy)) (some x.content.isField)
    simp [memberLines, declaration_eq_ok_iff.mpr hx, ho, hr]

private theorem owningType?_eq (hf : f.Invariant) :
    ∃ owner, owningType? f d = .ok owner := by
  unfold owningType?
  split
  · rename_i t ho
    obtain ⟨definition, ht⟩ := hf.exists_type?_of_ownedBy ho
    exact ⟨some definition, by simp [typeDefinition_eq_ok_iff.mpr ht, Except.map]⟩
  · exact ⟨none, rfl⟩

theorem unwritable_iff {c : Content} (hc : f.content? d = some c) :
    Unwritable f d fault ↔
      ((∃ k, c = .constructor k) ∧ (∀ t, ¬ f.OwnedBy d t) ∧
        fault = .detachedDeclaration (f.describe d)) ∨
      ∃ target, (c = .typeImport target ∨ ∃ member, c = .staticImport target member) ∧
        Unresolvable f target fault := by
  constructor
  · rintro (hd | ⟨hk, hn⟩ | ⟨hi, hu⟩)
    · simp [content?, hd] at hc
    · exact .inl ⟨⟨_, Option.some.inj (hc.symm.trans hk)⟩, hn, rfl⟩
    · exact .inr ⟨_, by simpa [Imports, hc] using hi, hu⟩
  · rintro (⟨⟨k, rfl⟩, hn, rfl⟩ | ⟨target, hi, hu⟩)
    · exact .detached hc hn
    · exact .target (by simpa [Imports, hc] using hi) hu

/-- An import is there, so that only its target can keep it from being written. -/
theorem Imports.unwritable_iff {target : Descriptor} (h : Imports f d target) :
    Unwritable f d fault ↔ Unresolvable f target fault := by
  rcases h with hc | ⟨member, hc⟩ <;> simp [Source.unwritable_iff hc]

private theorem contentLines_eq_error_iff (hf : f.Invariant) {x : Declaration}
    (hx : f.get? d = some x) (level : Nat)
    (hm : ∀ m ∈ x.content.members, (∃ y, f.get? m = some y) ∧ ∃ ls, render m = .ok ls) :
    contentLines f render d level x.content = .error fault ↔ Unwritable f d fault := by
  rw [unwritable_iff (content?_of_get? hx)]
  cases hc : x.content with
  | method m =>
    obtain ⟨owner, ho⟩ := owningType?_eq (d := d) hf
    simp [contentLines, ho]
  | constructor c =>
    cases ho : f.owner? d with
    | none => simp [contentLines, ho, OwnedBy, eq_comm]
    | some o =>
      cases o with
      | unit u => simp [contentLines, ho, OwnedBy, eq_comm]
      | type t =>
        obtain ⟨definition, ht⟩ := hf.exists_type?_of_ownedBy ho
        simp [contentLines, ho, OwnedBy, typeDefinition_eq_ok_iff.mpr ht]
  | type t =>
    rw [hc] at hm
    obtain ⟨members, hl⟩ := exists_memberLines hm none
    simp only [Content.members] at hl
    simp [contentLines, hl]
  | typeImport target =>
    simp [contentLines, importText, bind_eq_error, importName_eq_error_iff hf]
  | staticImport target member =>
    simp [contentLines, staticImportText, bind_eq_error, importName_eq_error_iff hf]
  | _ => simp [contentLines]

/-- By induction on the levels left below: members can be written, so a type can. -/
theorem lines_eq_error_iff (hf : f.Invariant) {d : DeclId} {fault : Fault} (level : Nat) :
    lines f d level = .error fault ↔ Unwritable f d fault := by
  cases hx : f.get? d with
  | none =>
    rw [lines_of_none hx]
    constructor
    · intro h
      cases h
      exact .absent hx
    · rintro (hd | ⟨hc, -⟩ | ⟨hi, -⟩)
      · rfl
      · simp [content?, hx] at hc
      · simp [Imports, content?, hx] at hi
  | some x =>
    rw [lines_eq hf hx, map_eq_error]
    apply contentLines_eq_error_iff hf hx level
    intro m hm
    have ho := hf.ownedBy_of_mem_members hx hm
    have hl := hf.nestingLevel_of_ownedBy ho
    have hlt := hf.nestingLevel_lt (hf.isSome_of_ownedBy ho)
    obtain ⟨y, hy, -⟩ := exists_get?_of_owner? ho
    refine ⟨⟨y, hy⟩, exists_ok_iff.mpr fun fault hfault => ?_⟩
    exact not_unwritable_of_ownedBy hf ho ((lines_eq_error_iff hf (level + 1)).mp hfault)
termination_by f.decls.size - f.nestingLevel d

theorem exists_lines_of_ownedBy (hf : f.Invariant) {t : DeclId} (h : f.OwnedBy d t)
    (level : Nat) : ∃ ls, lines f d level = .ok ls :=
  exists_ok_iff.mpr fun _ hfault =>
    not_unwritable_of_ownedBy hf h ((lines_eq_error_iff hf level).mp hfault)

theorem exists_lines_of_type (hf : f.Invariant) {definition : TypeDefinition}
    (h : f.type? d = some definition) (level : Nat) : ∃ ls, lines f d level = .ok ls := by
  apply exists_ok_iff.mpr
  intro fault hfault
  have hu := (lines_eq_error_iff hf level).mp hfault
  simp [unwritable_iff (content?_eq_type_iff.mpr h)] at hu

theorem renderDeclaration_eq (f : Forest) (d : DeclId) :
    renderDeclaration f d = (lines f d (f.nestingLevel d)).map joined := by
  unfold renderDeclaration
  cases hx : f.get? d with
  | none => simp [lines_of_none hx, declaration, hx, Except.map]
  | some x =>
    rw [declaration_eq_ok_iff.mpr hx, ok_bind]
    cases lines f d (f.nestingLevel d) <;> rfl

theorem renderDeclaration_of_lines {ls : List Line} (h : lines f d (f.nestingLevel d) = .ok ls) :
    renderDeclaration f d = .ok (joined ls) := by
  rw [renderDeclaration_eq, h]
  rfl

theorem renderDeclaration_eq_error_iff (hf : f.Invariant) :
    renderDeclaration f d = .error fault ↔ Unwritable f d fault := by
  rw [renderDeclaration_eq, map_eq_error, lines_eq_error_iff hf]

def packageLines (name : Option String) : List Line :=
  (name.map fun name => [⟨0, packageText name⟩, .blank]).getD []

theorem packageSection_eq (hf : f.Invariant) {u : UnitId} {unit : CompilationUnit}
    (hu : f.unit? u = some unit) :
    packageSection f unit = .ok (packageLines (f.packageName? u)) := by
  cases hp : unit.package with
  | none => simp [packageSection, packageName?, packageLines, hu, hp]
  | some id =>
    obtain ⟨name, hc⟩ := (hf.content_of_mem_unit hu).1 hp
    obtain ⟨⟨c, o, k⟩, hx, rfl⟩ : ∃ x, f.get? id = some x ∧ x.content = .package name := by
      simpa [content?] using hc
    simp [packageSection, packageName?, packageLines, hu, hp, hx, declaration_eq_ok_iff.mpr hx]

inductive FirstFault (f : Forest) : List DeclId → Fault → Prop where
  | here {d : DeclId} {rest : List DeclId} {fault : Fault} : Unwritable f d fault →
      FirstFault f (d :: rest) fault
  | later {d : DeclId} {rest : List DeclId} {fault : Fault} :
      (∀ other, ¬ Unwritable f d other) → FirstFault f rest fault → FirstFault f (d :: rest) fault

theorem not_firstFault_nil : ¬ FirstFault f [] fault := fun h => nomatch h

theorem firstFault_cons_iff {rest : List DeclId} :
    FirstFault f (d :: rest) fault ↔
      Unwritable f d fault ∨ (∀ other, ¬ Unwritable f d other) ∧ FirstFault f rest fault := by
  constructor
  · rintro (h | ⟨hn, h⟩)
    · exact .inl h
    · exact .inr ⟨hn, h⟩
  · rintro (h | ⟨hn, h⟩)
    · exact .here h
    · exact .later hn h

theorem exists_firstFault_iff {ids : List DeclId} :
    (∃ fault, FirstFault f ids fault) ↔ ∃ d ∈ ids, ∃ fault, Unwritable f d fault := by
  induction ids with
  | nil => simp [not_firstFault_nil]
  | cons d ids ih =>
    by_cases hd : ∃ fault, Unwritable f d fault
    · obtain ⟨fault, hd⟩ := hd
      exact ⟨fun _ => ⟨d, List.mem_cons_self, fault, hd⟩, fun _ => ⟨fault, .here hd⟩⟩
    · simp only [not_exists] at hd
      simp [firstFault_cons_iff, hd, ih]

theorem firstFault_append_iff {ids rest : List DeclId} :
    FirstFault f (ids ++ rest) fault ↔
      FirstFault f ids fault ∨ (∀ other, ¬ FirstFault f ids other) ∧ FirstFault f rest fault := by
  induction ids with
  | nil => simp [not_firstFault_nil]
  | cons d ids ih =>
    rw [List.cons_append, firstFault_cons_iff, firstFault_cons_iff, ih]
    by_cases hd : ∃ fault, Unwritable f d fault
    · obtain ⟨other, hd⟩ := hd
      have hno : ¬ ∀ other, ¬ FirstFault f (d :: ids) other := fun h => h other (.here hd)
      have hnd : ¬ ∀ other, ¬ Unwritable f d other := fun h => h other hd
      simp [hno, hnd]
    · simp only [not_exists] at hd
      simp [firstFault_cons_iff, hd]

private theorem filterMapM_eq_error_iff {step : DeclId → Except Fault (Option String)}
    {ids : List DeclId} (h : ∀ d ∈ ids, ∀ fault, step d = .error fault ↔ Unwritable f d fault) :
    ids.filterMapM step = .error fault ↔ FirstFault f ids fault := by
  induction ids with
  | nil => simp [not_firstFault_nil]
  | cons d ids ih =>
    have hd := h d List.mem_cons_self
    have hrest := ih fun x hx => h x (List.mem_cons_of_mem d hx)
    rw [List.filterMapM_cons, firstFault_cons_iff]
    cases hs : step d with
    | error other =>
      have hu := (hd other).mp hs
      have hnd : ¬ ∀ other, ¬ Unwritable f d other := fun h => h other hu
      simp [← hd fault, hs, hnd]
    | ok text =>
      have hnd : ∀ other, ¬ Unwritable f d other := fun other hu => by simp [(hd other).mpr hu] at hs
      cases text <;> simp [hnd, hrest, bind_eq_error]

theorem importSection_eq_error_iff {line? : Content → Except Fault (Option String)}
    {ids : List DeclId} (h : ∀ d ∈ ids, ∃ x, f.get? d = some x ∧
      ∀ fault, line? x.content = .error fault ↔ Unwritable f d fault) :
    importSection f line? ids = .error fault ↔ FirstFault f ids fault := by
  have hstep : ∀ d ∈ ids, ∀ fault,
      (do line? (← f.declaration d).content) = .error fault ↔ Unwritable f d fault := by
    intro d hd fault
    obtain ⟨x, hx, hl⟩ := h d hd
    rw [declaration_eq_ok_iff.mpr hx, ok_bind, hl]
  unfold importSection
  rw [bind_eq_error, filterMapM_eq_error_iff hstep]
  simp

private theorem typeImportText?_eq_error_iff (hf : f.Invariant) {u : UnitId}
    {unit : CompilationUnit} (hu : f.unit? u = some unit) (hd : d ∈ unit.imports) :
    ∃ x, f.get? d = some x ∧
      ∀ fault, typeImportText? f x.content = .error fault ↔ Unwritable f d fault := by
  obtain ⟨target, hc⟩ := (hf.content_of_mem_unit hu).2.1 hd
  obtain ⟨x, hx, hxc⟩ : ∃ x, f.get? d = some x ∧ x.content = .typeImport target := by
    simpa [content?] using hc
  refine ⟨x, hx, fun fault => ?_⟩
  rw [Imports.unwritable_iff (.inl hc), hxc]
  simp [typeImportText?, importText, importName_eq_error_iff hf]

private theorem staticImportText?_eq_error_iff (hf : f.Invariant) {u : UnitId}
    {unit : CompilationUnit} (hu : f.unit? u = some unit) (hd : d ∈ unit.staticImports) :
    ∃ x, f.get? d = some x ∧
      ∀ fault, staticImportText? f x.content = .error fault ↔ Unwritable f d fault := by
  obtain ⟨target, member, hc⟩ := (hf.content_of_mem_unit hu).2.2.1 hd
  obtain ⟨x, hx, hxc⟩ : ∃ x, f.get? d = some x ∧ x.content = .staticImport target member := by
    simpa [content?] using hc
  refine ⟨x, hx, fun fault => ?_⟩
  rw [Imports.unwritable_iff (.inr ⟨member, hc⟩), hxc]
  simp [staticImportText?, staticImportText, importName_eq_error_iff hf]

private theorem exists_bodyLines (hf : f.Invariant) {ids : List DeclId}
    (h : ∀ t ∈ ids, ∃ definition, f.type? t = some definition) :
    ∃ ls, bodyLines f ids = .ok ls := by
  induction ids with
  | nil => exact ⟨[], rfl⟩
  | cons t ids ih =>
    obtain ⟨definition, ht⟩ := h t List.mem_cons_self
    obtain ⟨own, ho⟩ := exists_lines_of_type hf ht 0
    obtain ⟨others, hr⟩ := ih fun x hx => h x (List.mem_cons_of_mem t hx)
    cases ids with
    | nil => exact ⟨own, ho⟩
    | cons next rest => simp [bodyLines, ho, hr]

theorem generate_of_none {u : UnitId} (hu : f.unit? u = none) :
    generate f u = .error (.unknownDeclaration u.display) := by
  simp [generate, Forest.unit, hu]

/-- A unit cannot be written if one of its imports cannot; the first such import says why. -/
theorem generate_eq_error_iff (hf : f.Invariant) {u : UnitId} {unit : CompilationUnit}
    (hu : f.unit? u = some unit) :
    generate f u = .error fault ↔ FirstFault f (unit.imports ++ unit.staticImports) fault := by
  have himports : ∀ fault, importSection f (typeImportText? f) unit.imports = .error fault ↔
      FirstFault f unit.imports fault :=
    fun fault => importSection_eq_error_iff fun d hd => typeImportText?_eq_error_iff hf hu hd
  have hstatics : ∀ fault, importSection f (staticImportText? f) unit.staticImports =
      .error fault ↔ FirstFault f unit.staticImports fault :=
    fun fault => importSection_eq_error_iff fun d hd => staticImportText?_eq_error_iff hf hu hd
  obtain ⟨body, hb⟩ := exists_bodyLines hf fun t ht => by
    obtain ⟨definition, hc⟩ := (hf.content_of_mem_unit hu).2.2.2 ht
    exact ⟨definition, content?_eq_type_iff.mp hc⟩
  unfold generate
  rw [unit_eq_ok_iff.mpr hu, ok_bind, packageSection_eq hf hu, ok_bind, firstFault_append_iff]
  simp only [← himports, ← hstatics]
  cases importSection f (typeImportText? f) unit.imports with
  | error other => simp
  | ok imports => cases importSection f (staticImportText? f) unit.staticImports <;> simp [hb]

theorem exists_imports (hf : f.Invariant) {u : UnitId} {unit : CompilationUnit}
    (hu : f.unit? u = some unit) (hd : d ∈ unit.imports ++ unit.staticImports) :
    ∃ target, Imports f d target := by
  rcases List.mem_append.mp hd with hd | hd
  · obtain ⟨target, hc⟩ := (hf.content_of_mem_unit hu).2.1 hd
    exact ⟨target, .inl hc⟩
  · obtain ⟨target, member, hc⟩ := (hf.content_of_mem_unit hu).2.2.1 hd
    exact ⟨target, .inr ⟨member, hc⟩⟩

theorem exists_generate_error_iff (hf : f.Invariant) {u : UnitId} :
    (∃ fault, generate f u = .error fault) ↔ f.unit? u = none ∨
      ∃ unit, f.unit? u = some unit ∧ ∃ d ∈ unit.imports ++ unit.staticImports,
        ∃ target fault, Imports f d target ∧ Unresolvable f target fault := by
  cases hu : f.unit? u with
  | none => simp [generate_of_none hu]
  | some unit =>
    simp only [generate_eq_error_iff hf hu, exists_firstFault_iff]
    constructor
    · rintro ⟨d, hd, fault, h⟩
      obtain ⟨target, hi⟩ := exists_imports hf hu hd
      exact .inr ⟨unit, rfl, d, hd, target, fault, hi, hi.unwritable_iff.mp h⟩
    · rintro (h | ⟨unit', h, d, hd, target, fault, hi, ht⟩)
      · cases h
      · cases h
        exact ⟨d, hd, fault, .target hi ht⟩

/-- A descriptor that the forest answers for one of its types, now or earlier in its history. -/
def Issued (f : Forest) (target : Descriptor) : Prop :=
  ∃ earlier id ops, ((definedType id).run earlier).1 = .ok target ∧ f = earlier.after ops

/-- A type stays a type, so that its descriptor can be resolved for good. -/
theorem Issued.not_unresolvable {target : Descriptor} (h : Issued f target) :
    ¬ Unresolvable f target fault := by
  obtain ⟨earlier, id, ops, hi, rfl⟩ := h
  obtain ⟨t, ht, rfl⟩ := definedType_eq_ok hi
  have hl := lasting?_after ops (lasting?_eq_type_iff.mpr ⟨t, ht, rfl, rfl⟩)
  obtain ⟨definition, hd, -⟩ := lasting?_eq_type_iff.mp hl
  rw [unresolvable_iff rfl, typeDefinition_eq_ok_iff.mpr hd]
  simp

/-- What can be written is written, and where it cannot be the fault says why. -/
structure WritesOrExplains (f : Forest) : Prop where
  bound : ∀ d level n, f.decls.size < n → linesWithin f n d level = lines f d level
  descent : ∀ d x level, f.get? d = some x → lines f d level =
    (contentLines f (fun m => lines f m (level + 1)) d level x.content).map
      (commentLines level x.comments ++ ·)
  unit_fails : ∀ u, (∃ fault, generate f u = .error fault) ↔ f.unit? u = none ∨
    ∃ unit, f.unit? u = some unit ∧ ∃ d ∈ unit.imports ++ unit.staticImports,
      ∃ target fault, Imports f d target ∧ Unresolvable f target fault
  unit_fault : ∀ u fault, generate f u = .error fault ↔
    (f.unit? u = none ∧ fault = .unknownDeclaration u.display) ∨
      ∃ unit, f.unit? u = some unit ∧ FirstFault f (unit.imports ++ unit.staticImports) fault
  /-- A unit is written if every type it imports as defined here was defined here. -/
  unit_issued : ∀ u unit, f.unit? u = some unit →
    (∀ d ∈ unit.imports ++ unit.staticImports, ∀ target id name kind, Imports f d target →
      target.referent = .defined id name kind → Issued f target) →
    ∃ text, generate f u = .ok text
  declaration_fault : ∀ d fault, renderDeclaration f d = .error fault ↔ Unwritable f d fault
  type_renders : ∀ t definition, f.type? t = some definition →
    ∃ text, renderDeclaration f t = .ok text
  member_renders : ∀ d t, f.OwnedBy d t → ∃ text, renderDeclaration f d = .ok text

theorem reachable_writesOrExplains (h : f.Reachable) : WritesOrExplains f := by
  have hf := reachable_invariant h
  constructor
  · intro d level n hn
    exact linesWithin_eq hf level (by omega) (by omega)
  · exact fun d x level hx => lines_eq hf hx level
  · exact fun u => exists_generate_error_iff hf
  · intro u fault
    cases hu : f.unit? u with
    | none => simp [generate_of_none hu, eq_comm]
    | some unit => simp [generate_eq_error_iff hf hu]
  · intro u unit hu hissued
    apply exists_ok_iff.mpr
    intro fault hfault
    rcases (exists_generate_error_iff hf).mp ⟨fault, hfault⟩ with hn | ⟨unit', hu', d, hd, rest⟩
    · simp [hu] at hn
    · obtain rfl : unit = unit' := Option.some.inj (hu.symm.trans hu')
      obtain ⟨target, fault, hi, ht⟩ := rest
      have hdefined : ∃ id name kind, target.referent = .defined id name kind := by
        rcases ht with ⟨hr, -⟩ | ⟨hr, -, -⟩ <;> exact ⟨_, _, _, hr⟩
      obtain ⟨id, name, kind, hr⟩ := hdefined
      exact (hissued d hd target id name kind hi hr).not_unresolvable ht
  · exact fun d fault => renderDeclaration_eq_error_iff hf
  · intro t definition ht
    obtain ⟨ls, hl⟩ := exists_lines_of_type hf ht (f.nestingLevel t)
    exact ⟨joined ls, renderDeclaration_of_lines hl⟩
  · intro d t ho
    obtain ⟨ls, hl⟩ := exists_lines_of_ownedBy hf ho (f.nestingLevel d)
    exact ⟨joined ls, renderDeclaration_of_lines hl⟩

/-- The unit of the sample imports a type of its own; the second constructor is nobody's. -/
theorem sample_writesOrExplains : sample.Reachable ∧ WritesOrExplains sample ∧
    (generate sample ⟨0⟩).toOption.isSome ∧
    renderDeclaration sample ⟨8⟩ = .error (.detachedDeclaration (sample.describe ⟨8⟩)) :=
  ⟨sample_reachable, reachable_writesOrExplains sample_reachable, by decide +kernel,
    by decide +kernel⟩

end DeclForest.Source
