import DeclForest.Proofs.Outcome
import Mathlib.Data.List.Find

/-!
Imports without repetition. An import makes a key known, and a unit is asked for a key by the first
of its imports that has it; the imports that are there may have keys in common, put in by hand. A
batch is worked through from the front, each step over the imports that the steps before it added,
and adds one import at the end for each key that was not known, where the key occurs first.
-/

namespace DeclForest

/-- What an import makes known: a type, or the static members of a type that have a name. -/
structure ImportKey where
  type : TypeKey
  member : Option String
  deriving DecidableEq, Repr

inductive ImportForm where
  | ofType | ofMember
  deriving DecidableEq, Repr

def ImportKey.form (key : ImportKey) : ImportForm :=
  match key.member with
  | none => .ofType
  | some _ => .ofMember

namespace Content

def imported? : Content → Option ImportKey
  | typeImport d => some ⟨d.key, none⟩
  | staticImport d member => some ⟨d.key, some member⟩
  | _ => none

variable {c c' : Content} {key : ImportKey}

theorem sameImport_iff (h : c'.imported? = some key) :
    c.sameImport c' = true ↔ c.imported? = some key := by
  cases c' <;> simp only [imported?, Option.some.injEq, reduceCtorEq] at h <;> subst h <;>
    cases c <;> simp [sameImport, imported?, Descriptor.sameType]

theorem isUnitLevel_of_imported? (h : c.imported? = some key) : c.IsUnitLevel := by
  cases c <;> first | exact ⟨rfl, rfl⟩ | simp [imported?] at h

theorem fresh_of_imported? (h : c.imported? = some key) : c.fresh = c := by
  cases c <;> first | rfl | simp [imported?] at h

theorem ne_package_of_imported? (h : c.imported? = some key) (name : String) :
    c ≠ .package name := by
  rintro rfl
  simp [imported?] at h

end Content

namespace CompilationUnit

variable (u : CompilationUnit)

def importsOf : ImportForm → List DeclId
  | .ofType => u.imports
  | .ofMember => u.staticImports

def importing (ids : List DeclId) : ImportForm → CompilationUnit
  | .ofType => { u with imports := u.imports ++ ids }
  | .ofMember => { u with staticImports := u.staticImports ++ ids }

@[simp] theorem importing_nil (form : ImportForm) : u.importing [] form = u := by
  cases form <;> simp [importing]

theorem importing_append (ids ids' : List DeclId) (form : ImportForm) :
    u.importing (ids ++ ids') form = (u.importing ids form).importing ids' form := by
  cases form <;> simp [importing]

theorem importsOf_importing (ids : List DeclId) (form form' : ImportForm) :
    (u.importing ids form).importsOf form' =
      u.importsOf form' ++ if form' = form then ids else [] := by
  cases form <;> cases form' <;> simp [importing, importsOf]

theorem receiving_eq_importing {c : Content} {key : ImportKey} (h : c.imported? = some key)
    (id : DeclId) : u.receiving id c = u.importing [id] key.form := by
  cases c <;> simp only [Content.imported?, Option.some.injEq, reduceCtorEq] at h <;> subst h <;>
    rfl

end CompilationUnit

namespace Forest

def imported? (f : Forest) (id : DeclId) : Option ImportKey :=
  (f.content? id).bind Content.imported?

def firstImport? (f : Forest) (u : UnitId) (key : ImportKey) : Option DeclId :=
  (f.unit? u).bind fun unit =>
    (unit.importsOf key.form).find? fun id => f.imported? id = some key

def nextIds (f : Forest) (count : Nat) : List DeclId :=
  (List.range' f.decls.size count).map DeclId.mk

/-- A forest with new imports in one of its units, each a new declaration; all else is as it was. -/
def withImports (f : Forest) (u : UnitId) (form : ImportForm) (new : List Content) : Forest where
  number := f.number
  decls := f.decls ++ (new.map fun c => (⟨c, some (.unit u), .none⟩ : Declaration)).toArray
  units := f.units.modify u.index fun unit => unit.importing (f.nextIds new.length) form

variable {f g : Forest} {u : UnitId} {unit : CompilationUnit} {c : Content} {key : ImportKey}
  {form : ImportForm} {id : DeclId}

theorem unit?_withImports (f : Forest) (u v : UnitId) (form : ImportForm) (new : List Content) :
    (f.withImports u form new).unit? v =
      if v = u then (f.unit? v).map (·.importing (f.nextIds new.length) form) else f.unit? v :=
  unit?_updateUnit f u v _

@[simp] theorem withImports_nil (f : Forest) (u : UnitId) (form : ImportForm) :
    f.withImports u form [] = f := by
  apply eq_of_look_ups
  · rfl
  · simp [withImports, get?]
  · intro v
    rw [unit?_withImports]
    split <;> simp [nextIds]

theorem withImports_cons (f : Forest) (u : UnitId) (form : ImportForm) (c : Content)
    (new : List Content) :
    f.withImports u form (c :: new) = (f.withImports u form [c]).withImports u form new := by
  apply eq_of_look_ups
  · rfl
  · intro d
    simp [withImports, get?]
  · intro v
    have hids : f.nextIds (c :: new).length =
        f.nextIds [c].length ++ (f.withImports u form [c]).nextIds new.length := by
      simp [nextIds, withImports, List.range'_succ]
    simp only [unit?_withImports, hids, CompilationUnit.importing_append]
    split <;> simp [Function.comp_def]

theorem get?_withImports_singleton (d : DeclId) : (f.withImports u form [c]).get? d =
    if d = ⟨f.decls.size⟩ then some ⟨c, some (.unit u), .none⟩ else f.get? d := by
  exact get?_push d

theorem imported?_withImports_singleton (d : DeclId) :
    (f.withImports u form [c]).imported? d =
      if d = ⟨f.decls.size⟩ then c.imported? else f.imported? d := by
  unfold imported? content?
  rw [get?_withImports_singleton]
  split <;> rfl

section Step

variable (hf : f.Invariant) (hu : f.unit? u = some unit) (hc : c.imported? = some key)

include hf hu

/-- What a unit lists among the imports of a form is an import of that form. -/
theorem Invariant.imported?_of_mem (hd : id ∈ unit.importsOf form) :
    ∃ key, f.imported? id = some key ∧ key.form = form := by
  cases form with
  | ofType =>
    obtain ⟨target, hc⟩ := (hf.content_of_mem_unit hu).2.1 hd
    exact ⟨⟨target.key, none⟩, by simp [imported?, hc, Content.imported?], rfl⟩
  | ofMember =>
    obtain ⟨target, member, hc⟩ := (hf.content_of_mem_unit hu).2.2.1 hd
    exact ⟨⟨target.key, some member⟩, by simp [imported?, hc, Content.imported?], rfl⟩

theorem Invariant.find?_importsOf_of_ne (form : ImportForm) (hform : key.form ≠ form) :
    ((unit.importsOf form).find? fun id => f.imported? id = some key) = none := by
  rw [List.find?_eq_none]
  intro id hid
  obtain ⟨other, hother, rfl⟩ := hf.imported?_of_mem hu hid
  simp only [hother, Option.some.injEq, decide_eq_true_eq]
  rintro rfl
  exact hform rfl

include hc

/-- Both forms are searched, but only imports of the form of the key can have it. -/
theorem Invariant.findImport_eq : f.findImport u c = .ok (f.firstImport? u key) := by
  have hsame : (fun id => (f.get? id).any fun d => d.content.sameImport c) =
      fun id => decide (f.imported? id = some key) := by
    funext id
    unfold imported? content?
    cases f.get? id with
    | none => simp
    | some d =>
      rw [Bool.eq_iff_iff]
      simp [Content.sameImport_iff hc]
  have hall : f.findImport u c = .ok ((unit.importsOf .ofType ++ unit.importsOf .ofMember).find?
      fun id => f.imported? id = some key) := by
    unfold findImport
    rw [unit_eq_ok_iff.mpr hu, hsame]
    rfl
  rw [hall, firstImport?, hu, Option.bind_some, List.find?_append]
  cases hform : key.form with
  | ofType =>
    rw [hf.find?_importsOf_of_ne hu .ofMember (by simp [hform])]
    simp
  | ofMember =>
    rw [hf.find?_importsOf_of_ne hu .ofType (by simp [hform])]
    simp

theorem Invariant.attach_new :
    (f.withNew c).attach ⟨f.decls.size⟩ (.unit u) = f.withImports u key.form [c] := by
  have hnew := hf.withNew c
  have hadm := admissible_new (Content.isUnitLevel_of_imported? hc) hu
  have hfresh := Content.fresh_of_imported? hc
  apply eq_of_look_ups
  · simp only [number_attach]
    rfl
  · intro d
    have hd : (f.withNew c).get? d =
        if d = ⟨f.decls.size⟩ then some ⟨c.fresh, none, .none⟩ else f.get? d := get?_push d
    rw [hnew.get?_attach_of_not_package hadm
      (hfresh.symm ▸ Content.ne_package_of_imported? hc), get?_withImports_singleton, hd]
    by_cases hid : d = ⟨f.decls.size⟩
    · simp [hid, hfresh]
    · simp [hid]
  · intro v
    have hv : (f.withNew c).unit? v = f.unit? v := rfl
    rw [hnew.unit?_attach hadm, hv, unit?_withImports]
    by_cases huv : v = u
    · subst huv
      simp [hu, hfresh, CompilationUnit.receiving_eq_importing _ hc, nextIds]
    · simp [huv, Ne.symm huv]

theorem Invariant.withImports_singleton : (f.withImports u key.form [c]).Invariant := by
  rw [← hf.attach_new hu hc]
  exact (hf.withNew c).attach (admissible_new (Content.isUnitLevel_of_imported? hc) hu)

/-- An import whose key is known is answered, and any other one is put at the end. -/
theorem Invariant.run_importOnce : (importOnce u c).run f =
    match f.firstImport? u key with
    | some id => (.ok id, f)
    | none => (.ok ⟨f.decls.size⟩, f.withImports u key.form [c]) := by
  unfold importOnce
  rw [Edit.run_inspect_bind_of_ok (hf.findImport_eq hu hc)]
  cases f.firstImport? u key with
  | some id => rfl
  | none =>
    have hadd := hf.run_register_new (Content.isUnitLevel_of_imported? hc) hu
    rw [hf.attach_new hu hc] at hadd
    exact (Edit.run_bind_of_ok (run_declare c f)).trans (Edit.run_bind_of_ok hadd)

/-- What is found once is found again, for imports only come at the end. -/
theorem Invariant.firstImport?_withImports_singleton (other : ImportKey) :
    (f.withImports u key.form [c]).firstImport? u other =
      (f.firstImport? u other).or (if other = key then some ⟨f.decls.size⟩ else none) := by
  have hold : ∀ id ∈ unit.importsOf other.form,
      (f.withImports u key.form [c]).imported? id = f.imported? id := by
    intro id hid
    obtain ⟨_, hkey, -⟩ := hf.imported?_of_mem hu hid
    have hne : id ≠ ⟨f.decls.size⟩ := by
      rintro rfl
      simp [imported?, content?, get?_size] at hkey
    rw [imported?_withImports_singleton, if_neg hne]
  have hfind : ((unit.importsOf other.form).find? fun id =>
        (f.withImports u key.form [c]).imported? id = some other) =
      (unit.importsOf other.form).find? fun id => f.imported? id = some other :=
    List.find?_congr fun id hid => by rw [hold id hid]
  have hnew : (f.withImports u key.form [c]).imported? ⟨f.decls.size⟩ = some key := by
    rw [imported?_withImports_singleton, if_pos rfl, hc]
  unfold firstImport?
  rw [unit?_withImports, if_pos rfl, hu]
  simp only [Option.map_some, Option.bind_some, CompilationUnit.importsOf_importing,
    List.find?_append, hfind]
  congr 1
  by_cases hkey : other = key
  · subst hkey
    simp [nextIds, hnew]
  · by_cases hform : other.form = key.form
    · simp [hkey, hform, nextIds, hnew, Ne.symm hkey]
    · simp [hkey, hform]

end Step

/-- A batch of imports answers each key with its first import, and adds one import for each key that
was not known, in the order in which these keys occur first. -/
structure AddsImports (f : Forest) (u : UnitId) (form : ImportForm) (contents : List Content)
    (keys : List ImportKey) (ids : List DeclId) (g : Forest) : Prop where
  answers : ids.map some = keys.map (g.firstImport? u)
  added : ∃ new, new.Sublist contents ∧ g = f.withImports u form new ∧
    new.map Content.imported? =
      ((keys.filter fun key => f.firstImport? u key = none).eraseDups).map some

theorem exists_unit?_withImports (hu : f.unit? u = some unit) (form : ImportForm)
    (new : List Content) : ∃ unit', (f.withImports u form new).unit? u = some unit' := by
  simp [unit?_withImports, hu]

theorem Invariant.firstImport?_withImports (hf : f.Invariant) (hu : f.unit? u = some unit)
    {new : List Content} (hnew : ∀ c ∈ new, ∃ key, c.imported? = some key ∧ key.form = form)
    {id : DeclId} (hfirst : f.firstImport? u key = some id) :
    (f.withImports u form new).firstImport? u key = some id := by
  induction new generalizing f unit with
  | nil => rwa [withImports_nil]
  | cons c new ih =>
    obtain ⟨other, hc, rfl⟩ := hnew c List.mem_cons_self
    obtain ⟨unit', hu'⟩ := exists_unit?_withImports hu other.form [c]
    rw [withImports_cons]
    apply ih (hf.withImports_singleton hu hc) hu'
    · exact fun c' hc' => hnew c' (List.mem_cons_of_mem c hc')
    · rw [hf.firstImport?_withImports_singleton hu hc, hfirst]
      rfl

/-- With one key known the others stay as unknown as they were. -/
theorem Invariant.filter_unknown_withImports (hf : f.Invariant) (hu : f.unit? u = some unit)
    (hc : c.imported? = some key) (keys : List ImportKey) :
    (keys.filter fun other => (f.withImports u key.form [c]).firstImport? u other = none) =
      (keys.filter fun other => f.firstImport? u other = none).filter (!· == key) := by
  rw [List.filter_filter]
  apply List.filter_congr
  intro other _
  rw [hf.firstImport?_withImports_singleton hu hc]
  by_cases hkey : other = key <;> simp [hkey]

theorem exists_key_of_mem {contents : List Content} {keys : List ImportKey}
    (hkeys : contents.map Content.imported? = keys.map some)
    (hform : ∀ key ∈ keys, key.form = form) (hc : c ∈ contents) :
    ∃ key, c.imported? = some key ∧ key.form = form := by
  have hm : c.imported? ∈ keys.map some := hkeys ▸ List.mem_map_of_mem hc
  obtain ⟨key, hkey, he⟩ := List.mem_map.mp hm
  exact ⟨key, he.symm, hform key hkey⟩

/-- By induction on the batch, over the forest that the steps before leave behind. -/
theorem Invariant.run_mapM_importOnce (hf : f.Invariant) (hu : f.unit? u = some unit)
    {contents : List Content} {keys : List ImportKey}
    (hkeys : contents.map Content.imported? = keys.map some)
    (hform : ∀ key ∈ keys, key.form = form) :
    ∃ ids g, (contents.mapM (importOnce u)).run f = (.ok ids, g) ∧
      f.AddsImports u form contents keys ids g := by
  induction contents generalizing f unit keys with
  | nil =>
    obtain rfl : keys = [] := by simpa using hkeys.symm
    exact ⟨[], f, rfl, rfl, [], .slnil, (withImports_nil f u form).symm, rfl⟩
  | cons c contents ih =>
    obtain _ | ⟨key, keys⟩ := keys
    · simp at hkeys
    simp only [List.map_cons, List.cons.injEq] at hkeys
    obtain ⟨hc, hrest⟩ := hkeys
    obtain rfl := hform key List.mem_cons_self
    have hrestform : ∀ other ∈ keys, other.form = key.form :=
      fun other ho => hform other (List.mem_cons_of_mem key ho)
    have hrun := hf.run_importOnce hu hc
    cases hk : f.firstImport? u key with
    | some id =>
      rw [hk] at hrun
      obtain ⟨ids, g, hruns, hadds⟩ := ih hf hu hrest hrestform
      obtain ⟨new, hsub, rfl, hnew⟩ := hadds.added
      refine ⟨id :: ids, _, ?_, ?_, new, .cons c hsub, rfl, ?_⟩
      · rw [List.mapM_cons, Edit.run_bind_of_ok hrun, Edit.run_bind_of_ok hruns]
        rfl
      · have hfirst := hf.firstImport?_withImports hu
          (fun c hc => exists_key_of_mem hrest hrestform (hsub.subset hc)) hk
        simp [hfirst, hadds.answers]
      · simpa [hk] using hnew
    | none =>
      rw [hk] at hrun
      obtain ⟨unit', hu'⟩ := exists_unit?_withImports hu key.form [c]
      obtain ⟨ids, g, hruns, hadds⟩ := ih (hf.withImports_singleton hu hc) hu' hrest hrestform
      obtain ⟨new, hsub, rfl, hnew⟩ := hadds.added
      refine ⟨⟨f.decls.size⟩ :: ids, _, ?_, ?_, c :: new, .cons_cons c hsub,
        (withImports_cons f u key.form c new).symm, ?_⟩
      · rw [List.mapM_cons, Edit.run_bind_of_ok hrun, Edit.run_bind_of_ok hruns]
        rfl
      · have hnewest : (f.withImports u key.form [c]).firstImport? u key =
            some ⟨f.decls.size⟩ := by
          simp [hf.firstImport?_withImports_singleton hu hc, hk]
        have hfirst := (hf.withImports_singleton hu hc).firstImport?_withImports hu'
          (fun c hc => exists_key_of_mem hrest hrestform (hsub.subset hc)) hnewest
        simp [hfirst, hadds.answers]
      · rw [hf.filter_unknown_withImports hu hc] at hnew
        simp [hk, hc, hnew, List.eraseDups_cons]

/-- Where each key is known a batch has nothing to add. -/
theorem Invariant.run_mapM_importOnce_of_known (hf : f.Invariant) (hu : f.unit? u = some unit)
    {contents : List Content} {keys : List ImportKey} {ids : List DeclId}
    (hkeys : contents.map Content.imported? = keys.map some)
    (hids : ids.map some = keys.map (f.firstImport? u)) :
    (contents.mapM (importOnce u)).run f = (.ok ids, f) := by
  induction contents generalizing keys ids with
  | nil =>
    obtain rfl : keys = [] := by simpa using hkeys.symm
    obtain rfl : ids = [] := by simpa using hids
    rfl
  | cons c contents ih =>
    obtain _ | ⟨key, keys⟩ := keys
    · simp at hkeys
    obtain _ | ⟨id, ids⟩ := ids
    · simp at hids
    simp only [List.map_cons, List.cons.injEq] at hkeys hids
    have hrun := hf.run_importOnce hu hkeys.1
    rw [← hids.1] at hrun
    rw [List.mapM_cons, Edit.run_bind_of_ok hrun, Edit.run_bind_of_ok (ih hkeys.2 hids.2)]
    rfl

end Forest

end DeclForest
