import DeclForest.Proofs.Lookup

/-!
Views of a forest. Ownership is seen through four of them: the owner of a declaration, what an owner
holds, the collection of a unit for a content, and what lasts of a declaration whatever is done to
it. Every change but the attachment of a declaration leaves the first three as they are.
-/

namespace DeclForest

namespace Content

/-- What no operation changes: kind, name, types, parameters, body and target. -/
def lasting : Content → Content
  | field x => field { x with modifiers := .empty }
  | method x => method { x with modifiers := .empty }
  | constructor x => constructor { x with modifiers := .empty }
  | type t => type (.ofName t.kind t.name)
  | other => other

def members : Content → List DeclId
  | type t => t.members
  | _ => []

@[simp] theorem lasting_setModifiers (m : Modifiers) (c : Content) :
    (c.setModifiers m).lasting = c.lasting := by
  cases c <;> rfl

@[simp] theorem members_setModifiers (m : Modifiers) (c : Content) :
    (c.setModifiers m).members = c.members := by
  cases c <;> rfl

@[simp] theorem members_fresh (c : Content) : c.fresh.members = [] := by
  cases c <;> rfl

@[simp] theorem fits_lasting (c : Content) (k : OwnerKind) : c.lasting.fits k = c.fits k := by
  cases c <;> cases k <;> rfl

end Content

@[simp] theorem TypeDefinition.kind_addMember (t : TypeDefinition) (id : DeclId) :
    (t.addMember id).kind = t.kind := by
  unfold addMember
  split <;> rfl

@[simp] theorem TypeDefinition.name_addMember (t : TypeDefinition) (id : DeclId) :
    (t.addMember id).name = t.name := by
  unfold addMember
  split <;> rfl

namespace CompilationUnit

def all (u : CompilationUnit) : List DeclId :=
  u.package.toList ++ u.staticImports ++ u.imports ++ u.types

/-- The collection for declarations with a content like the given one. -/
def collection (u : CompilationUnit) : Content → List DeclId
  | .package _ => u.package.toList
  | .typeImport _ => u.imports
  | .staticImport .. => u.staticImports
  | .type _ => u.types
  | _ => []

@[simp] theorem collection_lasting (u : CompilationUnit) (c : Content) :
    u.collection c.lasting = u.collection c := by
  cases c <;> rfl

theorem mem_all_of_collection {u : CompilationUnit} {c : Content} {d : DeclId}
    (h : d ∈ u.collection c) : d ∈ u.all := by
  cases c <;> simp_all [collection, all]

/-- No other collection of a unit has what the one for its content has. -/
theorem content_of_mem {u : CompilationUnit} {c : Content} {d : DeclId} (hn : u.all.Nodup)
    (hd : d ∈ u.collection c) :
    (u.package = some d → ∃ name, c = .package name) ∧
    (d ∈ u.imports → ∃ target, c = .typeImport target) ∧
    (d ∈ u.staticImports → ∃ target member, c = .staticImport target member) ∧
    (d ∈ u.types → ∃ t, c = .type t) := by
  rcases u with ⟨p, is, ss, ts⟩
  cases c <;> simp only [all, collection] at hn hd <;> cases p <;> grind

end CompilationUnit

namespace Forest

def held (f : Forest) : Owner → List DeclId
  | .type t => ((f.get? t).map fun d => d.content.members).getD []
  | .unit u => ((f.unit? u).map CompilationUnit.all).getD []

def collection (f : Forest) (u : UnitId) (c : Content) : List DeclId :=
  ((f.unit? u).map fun unit => unit.collection c).getD []

def content? (f : Forest) (id : DeclId) : Option Content := (f.get? id).map Declaration.content

def lasting? (f : Forest) (id : DeclId) : Option Content := (f.content? id).map Content.lasting

variable {f g : Forest} {id d : DeclId} {u : UnitId}

theorem held_type (f : Forest) (t : DeclId) :
    f.held (.type t) = ((f.get? t).map fun d => d.content.members).getD [] := rfl

theorem held_unit (f : Forest) (u : UnitId) :
    f.held (.unit u) = ((f.unit? u).map CompilationUnit.all).getD [] := rfl

theorem held_unit_of_unit? {u : UnitId} {unit : CompilationUnit} (hu : f.unit? u = some unit) :
    f.held (.unit u) = unit.all := by
  rw [held_unit, hu]
  rfl

theorem held_type_of_type? {t : DeclId} {definition : TypeDefinition}
    (ht : f.type? t = some definition) : f.held (.type t) = definition.members := by
  obtain ⟨o, k, hx⟩ := type?_eq_some_iff.mp ht
  rw [held_type, hx]
  rfl

theorem mem_held_type_iff {t : DeclId} :
    d ∈ f.held (.type t) ↔ ∃ definition, f.type? t = some definition ∧ d ∈ definition.members := by
  rw [held_type, type?]
  cases f.get? t with
  | none => simp
  | some x =>
    rcases x with ⟨c, o, k⟩
    cases c <;> simp [Content.members, Content.type?]

theorem mem_held_unit_iff :
    d ∈ f.held (.unit u) ↔ ∃ unit, f.unit? u = some unit ∧ d ∈ unit.all := by
  rw [held_unit]
  cases f.unit? u <;> simp

theorem mem_collection_iff {c : Content} :
    d ∈ f.collection u c ↔ ∃ unit, f.unit? u = some unit ∧ d ∈ unit.collection c := by
  unfold collection
  cases f.unit? u <;> simp

@[simp] theorem collection_lasting (f : Forest) (u : UnitId) (c : Content) :
    f.collection u c.lasting = f.collection u c := by
  simp [collection]

theorem content?_of_get? {x : Declaration} (h : f.get? id = some x) :
    f.content? id = some x.content := by
  simp [content?, h]

theorem lasting?_of_get? {x : Declaration} (h : f.get? id = some x) :
    f.lasting? id = some x.content.lasting := by
  simp [lasting?, content?_of_get? h]

theorem exists_get?_of_lasting? {c : Content} (h : f.lasting? id = some c) :
    ∃ x, f.get? id = some x ∧ x.content.lasting = c := by
  simpa [lasting?, content?] using h

theorem content?_eq_type_iff {t : TypeDefinition} :
    f.content? id = some (.type t) ↔ f.type? id = some t := by
  rw [type?_eq_some_iff]
  unfold content?
  cases f.get? id with
  | none => simp
  | some x =>
    rcases x with ⟨c, o, k⟩
    simp

/-- A declaration is a type definition for good or never. -/
theorem lasting?_eq_type_iff {kind : TypeKind} {name : String} :
    f.lasting? id = some (.type (.ofName kind name)) ↔
      ∃ t, f.type? id = some t ∧ t.kind = kind ∧ t.name = name := by
  unfold lasting? content? type?
  cases f.get? id with
  | none => simp
  | some x =>
    rcases x with ⟨c, o, k⟩
    cases c <;> simp [Content.lasting, Content.type?, TypeDefinition.ofName]

theorem exists_get?_of_owner? {o : Owner} (h : f.owner? d = some o) :
    ∃ x, f.get? d = some x ∧ x.owner = some o := by
  simpa [owner?, Option.bind_eq_some_iff] using h

/-- `g` differs from `f` in nothing that ownership depends on; it may have more declarations. -/
structure SameViews (f g : Forest) : Prop where
  owner : ∀ d, g.owner? d = f.owner? d
  held : ∀ o, g.held o = f.held o
  collection : ∀ u c, g.collection u c = f.collection u c
  lasting : ∀ d c, f.lasting? d = some c → g.lasting? d = some c

theorem owner?_updateDecl {change : Declaration → Declaration}
    (ho : ∀ x, (change x).owner = x.owner) (d : DeclId) :
    (f.updateDecl id change).owner? d = f.owner? d := by
  unfold owner?
  rw [get?_updateDecl]
  by_cases hd : d = id
  · cases f.get? d <;> simp [hd, ho]
  · simp [hd]

theorem lasting?_updateDecl {change : Declaration → Declaration}
    (hl : ∀ x, f.get? id = some x → (change x).content.lasting = x.content.lasting) (d : DeclId) :
    (f.updateDecl id change).lasting? d = f.lasting? d := by
  unfold lasting? content?
  rw [get?_updateDecl]
  by_cases hd : d = id
  · subst hd
    cases hx : f.get? d <;> simp [hl, hx]
  · simp [hd]

theorem held_updateDecl {change : Declaration → Declaration}
    (hm : ∀ x, f.get? id = some x → (change x).content.members = x.content.members) (o : Owner) :
    (f.updateDecl id change).held o = f.held o := by
  cases o with
  | unit u => rfl
  | type t =>
    rw [held_type, held_type, get?_updateDecl]
    by_cases ht : t = id
    · subst ht
      cases hx : f.get? t <;> simp [hm, hx]
    · simp [ht]

theorem updateDecl_sameViews {change : Declaration → Declaration}
    (ho : ∀ x, (change x).owner = x.owner)
    (hl : ∀ x, f.get? id = some x → (change x).content.lasting = x.content.lasting)
    (hm : ∀ x, f.get? id = some x → (change x).content.members = x.content.members) :
    SameViews f (f.updateDecl id change) :=
  ⟨owner?_updateDecl ho, held_updateDecl hm, fun _ _ => rfl,
    fun d _ hc => (lasting?_updateDecl hl d).trans hc⟩

theorem owner?_updateType (change : TypeDefinition → TypeDefinition) (d : DeclId) :
    (f.updateType id change).owner? d = f.owner? d := by
  refine owner?_updateDecl ?_ d
  rintro ⟨c, o, k⟩
  cases c <;> rfl

theorem lasting?_updateType {change : TypeDefinition → TypeDefinition}
    (h : ∀ t, f.type? id = some t → (change t).kind = t.kind ∧ (change t).name = t.name)
    (d : DeclId) : (f.updateType id change).lasting? d = f.lasting? d := by
  refine lasting?_updateDecl ?_ d
  rintro ⟨c, o, k⟩ hx
  cases c with
  | type t =>
    obtain ⟨hk, hn⟩ := h t (type?_eq_some_iff.mpr ⟨o, k, hx⟩)
    simp [Content.lasting, hk, hn]
  | _ => rfl

theorem updateType_sameViews {change : TypeDefinition → TypeDefinition}
    (h : ∀ t, f.type? id = some t → (change t).kind = t.kind ∧ (change t).name = t.name ∧
      (change t).members = t.members) :
    SameViews f (f.updateType id change) := by
  refine ⟨owner?_updateType change, held_updateDecl ?_, fun _ _ => rfl, ?_⟩
  · rintro ⟨c, o, k⟩ hx
    cases c with
    | type t => exact (h t (type?_eq_some_iff.mpr ⟨o, k, hx⟩)).2.2
    | _ => rfl
  · intro d c hc
    exact (lasting?_updateType (fun t ht => ⟨(h t ht).1, (h t ht).2.1⟩) d).trans hc

/-- An added member goes to the end, unless it is a member already. -/
theorem held_addMember {t : TypeDefinition} (ht : f.type? id = some t) (hd : d ∉ t.members)
    (o : Owner) :
    (f.updateType id (·.addMember d)).held o =
      if o = .type id then f.held o ++ [d] else f.held o := by
  obtain ⟨owner, comments, hx⟩ := type?_eq_some_iff.mp ht
  cases o with
  | unit u => simp [held_unit, updateType]
  | type x =>
    unfold updateType
    rw [held_type, held_type, get?_updateDecl]
    by_cases hxi : x = id
    · subst hxi
      simp [hx, Content.members, TypeDefinition.addMember, hd]
    · simp [hxi]

theorem get?_push {f : Forest} {x : Declaration} (d : DeclId) :
    ({ f with decls := f.decls.push x } : Forest).get? d =
      if d = ⟨f.decls.size⟩ then some x else f.get? d := by
  obtain ⟨i⟩ := d
  simp only [get?, Array.getElem?_push, DeclId.mk.injEq]

theorem get?_size (f : Forest) : f.get? ⟨f.decls.size⟩ = none := by
  simp [get?]

theorem declare_sameViews (f : Forest) (c : Content) (comments : Comments) :
    SameViews f { f with decls := f.decls.push ⟨c.fresh, none, comments⟩ } := by
  refine ⟨?_, ?_, fun _ _ => rfl, ?_⟩
  · intro d
    unfold owner?
    rw [get?_push]
    by_cases hd : d = ⟨f.decls.size⟩
    · simp [hd, get?_size]
    · simp [hd]
  · intro o
    cases o with
    | unit u => rfl
    | type t =>
      rw [held_type, held_type, get?_push]
      by_cases ht : t = ⟨f.decls.size⟩
      · simp [ht, get?_size]
      · simp [ht]
  · intro d x hx
    unfold lasting? content? at hx ⊢
    rw [get?_push]
    by_cases hd : d = ⟨f.decls.size⟩
    · simp [hd, get?_size] at hx
    · simpa [hd] using hx

theorem newUnit_sameViews (f : Forest) :
    SameViews f { f with units := f.units.push .empty } := by
  have hu : ∀ u, ({ f with units := f.units.push .empty } : Forest).unit? u =
      if u = ⟨f.units.size⟩ then some .empty else f.unit? u := by
    rintro ⟨i⟩
    simp only [unit?, Array.getElem?_push, UnitId.mk.injEq]
  have hs : f.unit? ⟨f.units.size⟩ = none := by simp [unit?]
  refine ⟨fun _ => rfl, ?_, ?_, fun _ _ h => h⟩
  · intro o
    cases o with
    | type t => rfl
    | unit u =>
      rw [held_unit, held_unit, hu]
      by_cases h : u = ⟨f.units.size⟩
      · simp [h, hs, CompilationUnit.all, CompilationUnit.empty]
      · simp [h]
  · intro u c
    unfold Forest.collection
    rw [hu]
    by_cases h : u = ⟨f.units.size⟩
    · cases c <;> simp [h, hs, CompilationUnit.collection, CompilationUnit.empty]
    · simp [h]

end Forest

end DeclForest
