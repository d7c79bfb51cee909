import DeclForest.Proofs.Canonical
import DeclForest.Proofs.Importing

/-!
Batches of references that are to be imported. A registry first says what every reference of a batch
stands for; only then does the unit take in what it does not list yet. A reference stands for the
same descriptor when it comes up again, in the batch or in a later one, so that it makes no
difference whether the references are wrapped before or between the imports, and a batch that comes
a second time finds all of itself done.
-/

namespace DeclForest

def Content.importOf (d : Descriptor) : Option String → Content
  | none => .typeImport d
  | some member => .staticImport d member

theorem Content.imported?_importOf (d : Descriptor) (member : Option String) :
    (importOf d member).imported? = some ⟨d.key, member⟩ := by
  cases member <;> rfl

theorem Content.importing_eq_ok_iff {d : Descriptor} {c : Content} :
    importing d = .ok c ↔ d.isPrimitive = false ∧ c = importOf d none := by
  unfold importing importOf
  cases d.isPrimitive <;> simp [eq_comm]

theorem Content.importingStatic_eq_ok_iff {d : Descriptor} {member : String} {c : Content} :
    importingStatic d member = .ok c ↔ d.isPrimitive = false ∧ c = importOf d (some member) := by
  unfold importingStatic importOf
  cases d.isPrimitive <;> simp [eq_comm]

theorem Descriptor.isPrimitive_of_key {d : Descriptor} {p : Primitive}
    (h : d.key = .primitive p) : d.isPrimitive = true := by
  unfold key at h
  unfold isPrimitive
  cases hx : d.referent <;> simp_all [Referent.key]

namespace Registry

variable {r r' r'' : Registry} {d : Descriptor} {position : Position} {t : ExternalType}
  {α β : Type} {type : α → ExternalType} {use : α → Descriptor → Except Fault β} {items : List α}
  {results : List β}

theorem wrap_eq_ok_iff : r.wrap position t = .ok (d, r') ↔ position.check t = .ok () ∧
    (r.find? (.external t.qualifiedName t.kind) = some d ∧ r' = r ∨
      r.find? (.external t.qualifiedName t.kind) = none ∧
        ∃ x, t.referent = .ok x ∧ r.intern x = (d, r')) := by
  unfold wrap
  rcases position.check t with fault | ⟨⟨⟩⟩
  · simp
  cases r.find? (.external t.qualifiedName t.kind) with
  | some known => simp [eq_comm]
  | none => cases t.referent <;> simp

/-- A reference that does not come out as a primitive is known afterwards by its name and kind. -/
theorem find?_of_wrap (h : r.wrap position t = .ok (d, r')) (hd : d.isPrimitive = false) :
    d.key = .external t.qualifiedName t.kind ∧ r'.find? d.key = some d := by
  obtain ⟨-, ⟨hfind, rfl⟩ | ⟨-, x, hx, hi⟩⟩ := wrap_eq_ok_iff.mp h
  · have hkey := key_of_find? hfind
    exact ⟨hkey, hkey ▸ hfind⟩
  · have hid : (r.adopt ⟨r.number, x⟩).1 = d := congrArg Prod.fst hi
    have hir : (r.adopt ⟨r.number, x⟩).2 = r' := congrArg Prod.snd hi
    have hkey : d.key = x.key := hid ▸ r.key_adopt ⟨r.number, x⟩
    have hfind : r'.find? x.key = some d := by
      rw [← hid, ← hir]
      exact r.find?_adopt_self ⟨r.number, x⟩
    have hkind : t.kind ≠ .primitiveType := by
      intro hk
      unfold ExternalType.referent at hx
      rw [hk] at hx
      cases hp : Primitive.ofKeyword? t.qualifiedName with
      | none => simp [hp] at hx
      | some p =>
        simp only [hp, Except.ok.injEq] at hx
        rw [Descriptor.isPrimitive_of_key (hkey.trans (congrArg Referent.key hx.symm))] at hd
        simp at hd
    obtain rfl := Except.ok.inj ((referent_of_ne hkind).symm.trans hx)
    exact ⟨hkey, hkey ▸ hfind⟩

theorem entries_isPrefix_of_wrap (h : r.wrap position t = .ok (d, r')) :
    r.entries <+: r'.entries := by
  obtain ⟨-, ⟨-, rfl⟩ | ⟨-, x, -, hi⟩⟩ := wrap_eq_ok_iff.mp h
  · exact List.prefix_refl _
  · obtain rfl : (r.adopt ⟨r.number, x⟩).2 = r' := congrArg Prod.snd hi
    rcases r.entries_adopt ⟨r.number, x⟩ with he | ⟨-, he⟩
    · exact he ▸ List.prefix_refl _
    · exact he ▸ List.prefix_append _ _

/-- From then on it stands for the same descriptor, whatever else becomes known. -/
theorem wrap_again (h : r.wrap position t = .ok (d, r')) (hd : d.isPrimitive = false)
    (hp : r'.entries <+: r''.entries) : r''.wrap position t = .ok (d, r'') := by
  obtain ⟨hcheck, -⟩ := wrap_eq_ok_iff.mp h
  obtain ⟨hkey, hfind⟩ := find?_of_wrap h hd
  exact wrap_eq_ok_iff.mpr ⟨hcheck, .inl ⟨hkey ▸ find?_of_isPrefix hp hfind, rfl⟩⟩

theorem collect_cons_eq_ok_iff {a : α} {rest : List α} :
    r.collect position type use (a :: rest) = (.ok results, r'') ↔
      ∃ d r' b others, r.wrap position (type a) = .ok (d, r') ∧ use a d = .ok b ∧
        r'.collect position type use rest = (.ok others, r'') ∧ results = b :: others := by
  constructor
  · intro h
    simp only [collect] at h
    split at h
    · simp at h
    rename_i d r' hw
    split at h
    · simp at h
    rename_i b hb
    obtain ⟨hmap, rfl⟩ := Prod.mk.inj h
    obtain ⟨others, hrest, rfl⟩ := map_eq_ok.mp hmap
    exact ⟨d, r', b, others, hw, hb, Prod.ext hrest rfl, rfl⟩
  · rintro ⟨d, r', b, others, hw, hb, hrest, rfl⟩
    simp [collect, hw, hb, hrest, Except.map]

theorem collect_nil_eq_ok_iff :
    r.collect position type use [] = (.ok results, r') ↔ results = [] ∧ r' = r := by
  simp [collect, eq_comm]

theorem entries_isPrefix_of_collect (h : r.collect position type use items = (.ok results, r')) :
    r.entries <+: r'.entries := by
  induction items generalizing r results with
  | nil =>
    obtain ⟨-, rfl⟩ := collect_nil_eq_ok_iff.mp h
    exact List.prefix_refl _
  | cons a rest ih =>
    obtain ⟨d, r₁, b, others, hw, -, hrest, -⟩ := collect_cons_eq_ok_iff.mp h
    exact (entries_isPrefix_of_wrap hw).trans (ih hrest)

section Uses

variable {content : α → Descriptor → β}
  (huse : ∀ a d b, use a d = .ok b → d.isPrimitive = false ∧ b = content a d)

include huse

/-- A batch that is accepted puts to use what its references were wrapped as. -/
theorem exists_wrapEach_of_collect (h : r.collect position type use items = (.ok results, r')) :
    ∃ ds, r.wrapEach position (items.map type) = (.ok ds, r') ∧
      ds.map Descriptor.key =
        items.map (fun a => .external (type a).qualifiedName (type a).kind) ∧
      results = List.zipWith content items ds := by
  induction items generalizing r results with
  | nil =>
    obtain ⟨rfl, rfl⟩ := collect_nil_eq_ok_iff.mp h
    exact ⟨[], rfl, rfl, rfl⟩
  | cons a rest ih =>
    obtain ⟨d, r₁, b, others, hw, hb, hrest, rfl⟩ := collect_cons_eq_ok_iff.mp h
    obtain ⟨hprim, rfl⟩ := huse a d b hb
    obtain ⟨ds, hds, hkeys, rfl⟩ := ih hrest
    refine ⟨d :: ds, ?_, ?_, rfl⟩
    · rw [List.map_cons, wrapEach_cons hw, hds]
      rfl
    · simp [(find?_of_wrap hw hprim).1, hkeys]

/-- A second time all is known, and the results are the same. -/
theorem collect_again (h : r.collect position type use items = (.ok results, r'))
    (hp : r'.entries <+: r''.entries) :
    r''.collect position type use items = (.ok results, r'') := by
  induction items generalizing r results with
  | nil =>
    obtain ⟨rfl, -⟩ := collect_nil_eq_ok_iff.mp h
    exact collect_nil_eq_ok_iff.mpr ⟨rfl, rfl⟩
  | cons a rest ih =>
    obtain ⟨d, r₁, b, others, hw, hb, hrest, rfl⟩ := collect_cons_eq_ok_iff.mp h
    have hknown := wrap_again hw (huse a d b hb).1 ((entries_isPrefix_of_collect hrest).trans hp)
    exact collect_cons_eq_ok_iff.mpr ⟨d, r'', b, others, hknown, hb, ih hrest, rfl⟩

end Uses

end Registry

namespace Edit

variable {α β : Type} {f g : Forest}

theorem run_bind_eq_ok_iff {e : Edit α} {next : α → Edit β} {b : β} :
    Edit.run (e >>= next) f = (.ok b, g) ↔
      ∃ a f', e.run f = (.ok a, f') ∧ (next a).run f' = (.ok b, g) := by
  rw [run_bind]
  rcases e.run f with ⟨_ | a, f'⟩ <;> simp

theorem run_mapM_cons_eq_ok_iff {e : α → Edit β} {a : α} {rest : List α} {results : List β} :
    Edit.run ((a :: rest).mapM e) f = (.ok results, g) ↔
      ∃ b f' others, (e a).run f = (.ok b, f') ∧ Edit.run (rest.mapM e) f' = (.ok others, g) ∧
        results = b :: others := by
  simp only [List.mapM_cons, run_bind_eq_ok_iff, run_pure, Prod.mk.injEq, Except.ok.injEq]
  constructor
  · rintro ⟨b, f', hb, others, f'', hrest, rfl, rfl⟩
    exact ⟨b, f', others, hb, hrest, rfl⟩
  · rintro ⟨b, f', others, hb, hrest, rfl⟩
    exact ⟨b, f', hb, others, g, hrest, rfl, rfl⟩

end Edit

namespace Forest

abbrev ImportResult := Except Fault (List DeclId) × Forest × Registry

def importEach {α : Type} (single : Forest → Registry → α → ImportResult) :
    Forest → Registry → List α → ImportResult
  | f, r, [] => (.ok [], f, r)
  | f, r, a :: rest =>
    match single f r a with
    | (.error fault, f, r) => (.error fault, f, r)
    | (.ok ids, f, r) =>
      let (others, f, r) := importEach single f r rest
      (others.map (ids ++ ·), f, r)

def importWrapped (u : UnitId) (f : Forest) (r : Registry) (t : ExternalType) : ImportResult :=
  match r.wrap .anyType t with
  | .error fault => (.error fault, f, r)
  | .ok (d, r) =>
    let (result, f) := (importType u d).run f
    (result.map ([·]), f, r)

end Forest

structure Importer (α : Type) where
  form : ImportForm
  type : α → ExternalType
  member : α → Option String
  /-- Why an item is refused before any reference is wrapped. -/
  refusal? : α → Option Fault
  use : α → Descriptor → Except Fault Content
  form_key : ∀ a key, ImportKey.form ⟨key, member a⟩ = form
  use_eq_ok : ∀ a d c, use a d = .ok c → d.isPrimitive = false ∧ c = .importOf d (member a)

namespace Importer

open Forest

variable {α : Type} (i : Importer α)

def key (a : α) : ImportKey := ⟨.external (i.type a).qualifiedName (i.type a).kind, i.member a⟩

def run (f : Forest) (r : Registry) (u : UnitId) (items : List α) : ImportResult :=
  match f.unit u with
  | .error fault => (.error fault, f, r)
  | .ok _ =>
    match items.findSome? i.refusal? with
    | some fault => (.error fault, f, r)
    | none => f.importCollected u (r.collect .anyType i.type i.use items)

/-- What a batch makes of a forest that has the unit: the references are wrapped as `ds`, and then
what they stand for is imported. -/
structure Exact (f : Forest) (r : Registry) (u : UnitId) (items : List α) (ds : List Descriptor)
    (ids : List DeclId) (g : Forest) (r' : Registry) : Prop where
  wrapped : r.wrapEach .anyType (items.map i.type) = (.ok ds, r')
  keys : ds.map Descriptor.key = items.map fun a => (i.key a).type
  imports : f.AddsImports u i.form (List.zipWith (fun a d => .importOf d (i.member a)) items ds)
    (items.map i.key) ids g

variable {i} {f g : Forest} {r r' : Registry} {u : UnitId} {unit : CompilationUnit}
  {items : List α} {ids : List DeclId} {a : α}

theorem run_eq_ok_iff (hu : (f.unit? u).isSome) : i.run f r u items = (.ok ids, g, r') ↔
    (∀ a ∈ items, i.refusal? a = none) ∧ ∃ contents,
      r.collect .anyType i.type i.use items = (.ok contents, r') ∧
      (contents.mapM (importOnce u)).run f = (.ok ids, g) := by
  obtain ⟨unit, hu⟩ := Option.isSome_iff_exists.mp hu
  unfold run
  rw [unit_eq_ok_iff.mpr hu, ← List.findSome?_eq_none_iff]
  cases items.findSome? i.refusal? with
  | some fault => simp
  | none =>
    rcases r.collect .anyType i.type i.use items with ⟨_ | contents, last⟩
    · simp [importCollected]
    · simp only [importCollected, Prod.mk.injEq, Except.ok.injEq]
      constructor
      · rintro ⟨hids, hg, rfl⟩
        exact ⟨trivial, contents, ⟨rfl, rfl⟩, Prod.ext hids hg⟩
      · rintro ⟨-, _, ⟨rfl, rfl⟩, hrun⟩
        simp [hrun]

/-- The contents of an accepted batch have the keys of its items. -/
theorem map_imported?_contents {ds : List Descriptor}
    (hkeys : ds.map Descriptor.key = items.map fun a => (i.key a).type) :
    (List.zipWith (fun a d => Content.importOf d (i.member a)) items ds).map Content.imported? =
      (items.map i.key).map some := by
  induction items generalizing ds with
  | nil => rfl
  | cons a rest ih =>
    obtain _ | ⟨d, ds⟩ := ds
    · simp at hkeys
    simp only [List.map_cons, List.cons.injEq] at hkeys
    simp only [List.zipWith_cons_cons, List.map_cons, ih hkeys.2, Content.imported?_importOf,
      hkeys.1]
    rfl

theorem form_of_mem {key : ImportKey} (hk : key ∈ items.map i.key) : key.form = i.form := by
  obtain ⟨a, -, rfl⟩ := List.mem_map.mp hk
  exact i.form_key a _

theorem exact_of_run (hf : f.Invariant) (hu : (f.unit? u).isSome)
    (h : i.run f r u items = (.ok ids, g, r')) :
    ∃ ds, i.Exact f r u items ds ids g r' := by
  obtain ⟨-, contents, hcollect, hrun⟩ := (run_eq_ok_iff hu).mp h
  obtain ⟨ds, hwrapped, hkeys, rfl⟩ := Registry.exists_wrapEach_of_collect i.use_eq_ok hcollect
  obtain ⟨unit, hu⟩ := Option.isSome_iff_exists.mp hu
  obtain ⟨ids', g', hrun', himports⟩ :=
    hf.run_mapM_importOnce hu (map_imported?_contents hkeys) fun _ => form_of_mem
  obtain ⟨hids, rfl⟩ := Prod.mk.inj (hrun.symm.trans hrun')
  obtain rfl := Except.ok.inj hids
  exact ⟨ds, hwrapped, hkeys, himports⟩

theorem changes_of_run {contents : List Content}
    (h : (contents.mapM (importOnce u)).run f = (.ok ids, g)) : Changes (fun _ => True) f g := by
  have hmakes := Edit.makes_mapM (P := fun _ => True)
    (fun c (_ : c ∈ contents) => makes_importOnce u (c := c) trivial) f
  rwa [h] at hmakes

theorem isSome_unit?_of_run {contents : List Content} (hu : (f.unit? u).isSome)
    (h : (contents.mapM (importOnce u)).run f = (.ok ids, g)) : (g.unit? u).isSome :=
  Changes.keep (I := fun f => (f.unit? u).isSome) Change.isSome_unit? (changes_of_run h) hu

/-- A second time nothing is left to import. -/
theorem run_again (hf : f.Invariant) (hu : (f.unit? u).isSome)
    (h : i.run f r u items = (.ok ids, g, r')) : i.run g r' u items = (.ok ids, g, r') := by
  obtain ⟨ds, hexact⟩ := exact_of_run hf hu h
  obtain ⟨hall, contents, hcollect, hrun⟩ := (run_eq_ok_iff hu).mp h
  have hg : g.Invariant := Changes.keep Change.invariant (changes_of_run hrun) hf
  have hgu := isSome_unit?_of_run hu hrun
  obtain ⟨unit, hunit⟩ := Option.isSome_iff_exists.mp hgu
  obtain ⟨ds', -, hkeys, rfl⟩ := Registry.exists_wrapEach_of_collect i.use_eq_ok hcollect
  have hcollect' := Registry.collect_again i.use_eq_ok hcollect (List.prefix_refl _)
  have hrun' := hg.run_mapM_importOnce_of_known hunit (map_imported?_contents hkeys)
    hexact.imports.answers
  exact (run_eq_ok_iff hgu).mpr ⟨hall, _, hcollect', hrun'⟩

/-- The first item of a batch may be imported on its own. -/
theorem exists_run_of_cons {rest : List α} (hu : (f.unit? u).isSome)
    (h : i.run f r u (a :: rest) = (.ok ids, g, r')) :
    ∃ id f₁ r₁ others, i.run f r u [a] = (.ok [id], f₁, r₁) ∧ (f₁.unit? u).isSome ∧
      i.run f₁ r₁ u rest = (.ok others, g, r') ∧ ids = id :: others := by
  obtain ⟨hall, contents, hcollect, hrun⟩ := (run_eq_ok_iff hu).mp h
  obtain ⟨d, r₁, c, cs, hw, huse, hrest, rfl⟩ := Registry.collect_cons_eq_ok_iff.mp hcollect
  obtain ⟨id, f₁, others, honce, hothers, rfl⟩ := Edit.run_mapM_cons_eq_ok_iff.mp hrun
  have hsingle : ([c].mapM (importOnce u)).run f = (.ok [id], f₁) :=
    Edit.run_mapM_cons_eq_ok_iff.mpr ⟨id, f₁, [], honce, rfl, rfl⟩
  have hu₁ := isSome_unit?_of_run hu hsingle
  refine ⟨id, f₁, r₁, others, ?_, hu₁, ?_, rfl⟩
  · refine (run_eq_ok_iff hu).mpr ⟨?_, [c], ?_, hsingle⟩
    · simpa using hall a List.mem_cons_self
    · exact Registry.collect_cons_eq_ok_iff.mpr ⟨d, r₁, c, [], hw, huse, rfl, rfl⟩
  · exact (run_eq_ok_iff hu₁).mpr
      ⟨fun b hb => hall b (List.mem_cons_of_mem a hb), cs, hrest, hothers⟩

/-- By induction on the batch: wrapped and imported one after the other, its items end where the
whole of it does. -/
theorem importEach_of_run {single : Forest → Registry → α → ImportResult}
    (hsingle : ∀ f r a id g r', (f.unit? u).isSome → i.run f r u [a] = (.ok [id], g, r') →
      single f r a = (.ok [id], g, r'))
    (hu : (f.unit? u).isSome) (h : i.run f r u items = (.ok ids, g, r')) :
    importEach single f r items = (.ok ids, g, r') := by
  induction items generalizing f r ids with
  | nil =>
    obtain ⟨-, contents, hcollect, hrun⟩ := (run_eq_ok_iff hu).mp h
    obtain ⟨rfl, rfl⟩ := Registry.collect_nil_eq_ok_iff.mp hcollect
    obtain ⟨hids, rfl⟩ := Prod.mk.inj hrun
    obtain rfl := Except.ok.inj hids
    rfl
  | cons a rest ih =>
    obtain ⟨id, f₁, r₁, others, hfirst, hu₁, hrest, rfl⟩ := exists_run_of_cons hu h
    simp only [importEach, hsingle f r a id f₁ r₁ hu hfirst, ih hu₁ hrest]
    rfl

end Importer

def typeImporter : Importer ExternalType where
  form := .ofType
  type t := t
  member _ := none
  refusal? _ := none
  use _ d := Content.importing d
  form_key _ _ := rfl
  use_eq_ok _ _ _ h := Content.importing_eq_ok_iff.mp h

def memberImporter : Importer ExternalMember where
  form := .ofMember
  type := ExternalMember.declaringType
  member m := some m.name
  refusal? m := if m.isStatic then none else some (.illegalImport m.qualifiedName)
  use m d := Content.importingStatic d m.name
  form_key _ _ := rfl
  use_eq_ok _ _ _ h := Content.importingStatic_eq_ok_iff.mp h

namespace Forest

variable {f g : Forest} {r r' : Registry} {u : UnitId}

theorem importTypes_eq_run (f : Forest) (r : Registry) (u : UnitId) (types : List ExternalType) :
    f.importTypes r u types = typeImporter.run f r u types := by
  have hnone : types.findSome? typeImporter.refusal? = none := by
    simp [typeImporter]
  unfold importTypes Importer.run
  rw [hnone]
  rfl

theorem importStatic_eq_run (f : Forest) (r : Registry) (u : UnitId)
    (members : List ExternalMember) :
    f.importStatic r u members = memberImporter.run f r u members := by
  have hfind : members.findSome? memberImporter.refusal? =
      (members.find? fun m => !m.isStatic).map fun m => .illegalImport m.qualifiedName := by
    induction members with
    | nil => rfl
    | cons m rest ih =>
      cases hm : m.isStatic <;> simp [memberImporter, hm, ← ih]
  unfold importStatic Importer.run
  rw [hfind]
  cases members.find? fun m => !m.isStatic <;> rfl

theorem run_importType {d : Descriptor} {c : Content} (hu : (f.unit? u).isSome)
    (hc : Content.importing d = .ok c) : (importType u d).run f = (importOnce u c).run f := by
  obtain ⟨unit, hu⟩ := Option.isSome_iff_exists.mp hu
  unfold importType
  rw [Edit.run_inspect_bind_of_ok (unit_eq_ok_iff.mpr hu), hc]
  rfl

theorem importWrapped_of_run {t : ExternalType} {id : DeclId} (hu : (f.unit? u).isSome)
    (h : typeImporter.run f r u [t] = (.ok [id], g, r')) :
    importWrapped u f r t = (.ok [id], g, r') := by
  obtain ⟨-, contents, hcollect, hrun⟩ := (Importer.run_eq_ok_iff hu).mp h
  obtain ⟨d, r₁, c, cs, hw, hc, hnil, rfl⟩ := Registry.collect_cons_eq_ok_iff.mp hcollect
  obtain ⟨rfl, rfl⟩ := Registry.collect_nil_eq_ok_iff.mp hnil
  obtain ⟨id', f₁, others, honce, hothers, hids⟩ := Edit.run_mapM_cons_eq_ok_iff.mp hrun
  obtain ⟨rfl, rfl⟩ := List.cons.inj hids
  obtain ⟨-, rfl⟩ := Prod.mk.inj hothers
  have hw : r.wrap .anyType t = .ok (d, r') := hw
  unfold importWrapped
  simp only [hw, run_importType hu hc, honce]
  rfl

/-- What importing batches of references into a unit does. -/
structure ImportsExactly (f : Forest) (r : Registry) (u : UnitId) : Prop where
  types : ∀ types ids g r', f.importTypes r u types = (.ok ids, g, r') →
    (∃ ds, typeImporter.Exact f r u types ds ids g r') ∧
    importEach (importWrapped u) f r types = (.ok ids, g, r') ∧
    g.importTypes r' u types = (.ok ids, g, r')
  members : ∀ members ids g r', f.importStatic r u members = (.ok ids, g, r') →
    (∃ ds, memberImporter.Exact f r u members ds ids g r') ∧
    importEach (fun f r m => f.importStatic r u [m]) f r members = (.ok ids, g, r') ∧
    g.importStatic r' u members = (.ok ids, g, r')
  /-- A member that is not static undoes nothing, for it is found before anything is done. -/
  nonStatic : ∀ before m after, (∀ known ∈ before, ExternalMember.isStatic known = true) →
    m.isStatic = false → f.importStatic r u (before ++ m :: after) =
      (.error (.illegalImport m.qualifiedName), f, r)

theorem reachable_importsExactly (h : f.Reachable) {unit : CompilationUnit}
    (hunit : f.unit? u = some unit) (r : Registry) : f.ImportsExactly r u := by
  have hf := reachable_invariant h
  have hu : (f.unit? u).isSome := by simp [hunit]
  constructor
  · intro types ids g r' hrun
    rw [importTypes_eq_run] at hrun ⊢
    refine ⟨Importer.exact_of_run hf hu hrun, ?_, Importer.run_again hf hu hrun⟩
    exact Importer.importEach_of_run (fun f r t id g r' => importWrapped_of_run) hu hrun
  · intro members ids g r' hrun
    rw [importStatic_eq_run] at hrun ⊢
    refine ⟨Importer.exact_of_run hf hu hrun, ?_, Importer.run_again hf hu hrun⟩
    refine Importer.importEach_of_run (fun f r m id g r' _ hm => ?_) hu hrun
    rw [importStatic_eq_run, hm]
  · intro before m after hbefore hm
    have hfind : (before ++ m :: after).find? (fun m => !m.isStatic) = some m := by
      have hnone : before.find? (fun m => !m.isStatic) = none := by simpa using hbefore
      simp [hnone, hm]
    unfold importStatic
    rw [unit_eq_ok_iff.mpr hunit, hfind]

def importRun : List Operation :=
  [.newUnit, .declare (.typeImport ⟨7, .external ⟨"a.A", .classType, none, []⟩⟩),
   .addToUnit ⟨0⟩ ⟨0⟩, .declare (.typeImport ⟨8, .external ⟨"a.A", .classType, none, []⟩⟩),
   .addToUnit ⟨0⟩ ⟨1⟩]

def importForest : Forest := (empty 0).after importRun

/-- The type that is there twice is answered by its first import; another one is added where it
comes up first. Of the members none is imported when one of them is not static. -/
theorem importForest_importsExactly :
    importForest.Reachable ∧ importForest.ImportsExactly (.empty 0) ⟨0⟩ ∧
    (importForest.importTypes (.empty 0) ⟨0⟩ [⟨"b.B", .classType, none, []⟩,
      ⟨"a.A", .classType, none, []⟩, ⟨"b.B", .classType, none, []⟩]).1 = .ok [⟨2⟩, ⟨0⟩, ⟨2⟩] ∧
    importForest.importStatic (.empty 0) ⟨0⟩ [⟨⟨"b.B", .classType, none, []⟩, "max", .field,
        .ofFlag .static⟩, ⟨⟨"b.B", .classType, none, []⟩, "min", .field, .empty⟩] =
      (.error (.illegalImport "b.B.min"), importForest, .empty 0) := by
  have hreachable : importForest.Reachable := ⟨0, importRun, rfl⟩
  have hunit : importForest.unit? ⟨0⟩ = some ⟨none, [⟨0⟩, ⟨1⟩], [], []⟩ := by decide +kernel
  have hexactly := reachable_importsExactly hreachable hunit (.empty 0)
  refine ⟨hreachable, hexactly, by decide +kernel, ?_⟩
  have hrefused := hexactly.nonStatic
    [⟨⟨"b.B", .classType, none, []⟩, "max", .field, .ofFlag .static⟩]
    ⟨⟨"b.B", .classType, none, []⟩, "min", .field, .empty⟩ [] (by decide) (by decide)
  have hname : ExternalMember.qualifiedName
      ⟨⟨"b.B", .classType, none, []⟩, "min", .field, .empty⟩ = "b.B.min" := by decide +kernel
  rw [hname] at hrefused
  exact hrefused

end Forest

end DeclForest
