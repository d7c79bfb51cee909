import DeclForest.Proofs.Registration

/-!
Runs of the public operations. `Operation` lists what a client may do with a forest, in any order
and with any arguments; `Reachable` forests are those left behind by a run that starts from an empty
one, refused operations included. Every operation is a sequence of the elementary changes of
`Change`, each under the check that goes before it, so that an invariant is proved once for each
change and not for each operation. A change says of what it declares that it is among the contents
of a class; for most invariants the class of all contents will do.
-/

namespace DeclForest

inductive Operation where
  | declare (c : Content)
  | newUnit
  | register (id : DeclId) (o : Owner)
  | add (type id : DeclId)
  | addAll (type : DeclId) (ids : List DeclId)
  | addNew (type : DeclId) (c : Content)
  | addToUnit (u : UnitId) (id : DeclId)
  | setPackage (u : UnitId) (name : String)
  | setPackageDefinition (u : UnitId) (id : DeclId)
  | importType (u : UnitId) (target : Descriptor)
  | importTypes (r : Registry) (u : UnitId) (types : List ExternalType)
  | importStatic (r : Registry) (u : UnitId) (members : List ExternalMember)
  | setModifiers (id : DeclId) (m : Modifiers)
  | extend (id : DeclId) (super : Descriptor)
  | addSuperInterface (id : DeclId) (face : Descriptor)
  | setDoc (id : DeclId) (text : String)
  | setBlock (id : DeclId) (text : String)
  | addLine (id : DeclId) (text : String)
  | definedType (id : DeclId)
  | fork (number : Nat)
  deriving DecidableEq, Repr

def Operation.contents : Operation → List Content
  | declare c | addNew _ c => [c]
  | _ => []

def Edit.outcome {α : Type} (e : Edit α) (f : Forest) : Except Fault Unit × Forest :=
  ((e.run f).1.map fun _ => (), (e.run f).2)

/-- How an operation ends, and the forest it leaves behind, also where it is refused. -/
def Operation.perform : Operation → Forest → Except Fault Unit × Forest
  | declare c => (Forest.declare c).outcome
  | newUnit => Forest.newUnit.outcome
  | register id o => (Forest.register id o).outcome
  | add type id => (Forest.add type id).outcome
  | addAll type ids => (Forest.addAll type ids).outcome
  | addNew type c => (Forest.addNew type c).outcome
  | addToUnit u id => (Forest.addToUnit u id).outcome
  | setPackage u name => (Forest.setPackage u name).outcome
  | setPackageDefinition u id => (Forest.setPackageDefinition u id).outcome
  | importType u target => (Forest.importType u target).outcome
  | importTypes r u types => fun f =>
    ((f.importTypes r u types).1.map fun _ => (), (f.importTypes r u types).2.1)
  | importStatic r u members => fun f =>
    ((f.importStatic r u members).1.map fun _ => (), (f.importStatic r u members).2.1)
  | setModifiers id m => (Forest.setModifiers id m).outcome
  | extend id super => (Forest.extend id super).outcome
  | addSuperInterface id face => (Forest.addSuperInterface id face).outcome
  | setDoc id text => (Forest.setDoc id text).outcome
  | setBlock id text => (Forest.setBlock id text).outcome
  | addLine id text => (Forest.addLine id text).outcome
  | definedType id => (Forest.definedType id).outcome
  | fork number => fun f => (.ok (), f.fork number)

namespace Forest

def after (f : Forest) (ops : List Operation) : Forest :=
  ops.foldl (fun f op => (op.perform f).2) f

def Reachable (f : Forest) : Prop := ∃ number ops, (empty number).after ops = f

/-- A class with a nested class, a constructor and two fields in a unit that changes its package;
three operations are refused. -/
def sampleRun : List Operation :=
  [.newUnit, .setPackage ⟨0⟩ "a", .setPackage ⟨0⟩ "b",
   .declare (.type (.ofName .classKind "C")), .addToUnit ⟨0⟩ ⟨2⟩,
   .addNew ⟨2⟩ (.type (.ofName .classKind "D")),
   .addNew ⟨3⟩ (.field ⟨"x", ⟨0, .primitive .int⟩, .empty, none⟩),
   .addNew ⟨3⟩ (.field ⟨"y", ⟨0, .primitive .int⟩, .empty, none⟩),
   .addNew ⟨3⟩ (.constructor ⟨.empty, [], [], []⟩), .setDoc ⟨3⟩ "nested",
   .importType ⟨0⟩ ⟨0, .defined ⟨3⟩ "D" .classKind⟩,
   .register ⟨2⟩ (.type ⟨3⟩), .addAll ⟨2⟩ [⟨4⟩], .declare (.constructor ⟨.empty, [], [], []⟩),
   .addToUnit ⟨0⟩ ⟨8⟩]

def sample : Forest := (empty 0).after sampleRun

theorem sample_reachable : sample.Reachable := ⟨0, sampleRun, rfl⟩

/-- One elementary change, under what was checked before it; `P` holds of what is declared. -/
inductive Change (P : Content → Prop) : Forest → Forest → Prop where
  | declare (f : Forest) {c : Content} : P c →
      Change P f { f with decls := f.decls.push ⟨c.fresh, none, .none⟩ }
  | newUnit (f : Forest) : Change P f { f with units := f.units.push .empty }
  | attach {f : Forest} {id : DeclId} {o : Owner} :
      f.checkRegistration id o = .ok .pending → Change P f (f.attach id o)
  | setModifiers {f : Forest} {id : DeclId} {m : Modifiers} : f.checkModifiers id m = .ok () →
      Change P f (f.updateDecl id fun d => { d with content := d.content.setModifiers m })
  | extend {f : Forest} {id : DeclId} {super : Descriptor} {t t' : TypeDefinition} :
      f.type? id = some t → t.extending super = .ok t' → Change P f (f.updateType id fun _ => t')
  | implement (f : Forest) (id : DeclId) (face : Descriptor) :
      Change P f (f.updateType id (·.implementing face))
  | comment (f : Forest) (id : DeclId) (change : Comments → Comments) :
      Change P f (f.updateDecl id fun d => { d with comments := change d.comments })
  | issue (f : Forest) (id : DeclId) (issuer : Nat) :
      Change P f (f.updateType id fun t => { t with issuer := some issuer })
  | fork (f : Forest) (number : Nat) : Change P f (f.fork number)

abbrev Changes (P : Content → Prop) : Forest → Forest → Prop := Relation.ReflTransGen (Change P)

/-- `P` holds of what operations declare without having been given it. -/
structure CoversUnits (P : Content → Prop) : Prop where
  package : ∀ name, P (.package name)
  importing : ∀ target c, Content.importing target = .ok c → P c
  importingStatic : ∀ target member c, Content.importingStatic target member = .ok c → P c

theorem coversUnits_true : CoversUnits fun _ => True :=
  ⟨fun _ => trivial, fun _ _ _ => trivial, fun _ _ _ _ => trivial⟩

end Forest

namespace Registry

variable {α β : Type}

/-- Every result of a batch was made by its use from a descriptor. -/
theorem exists_use_of_mem_collect {position : Position} {type : α → ExternalType}
    {use : α → Descriptor → Except Fault β} {items : List α} {r : Registry} {results : List β}
    (h : (r.collect position type use items).1 = .ok results) :
    ∀ b ∈ results, ∃ item d, use item d = .ok b := by
  induction items generalizing r results with
  | nil =>
    obtain rfl : [] = results := by simpa [collect] using h
    simp
  | cons item rest ih =>
    unfold collect at h
    split at h
    · simp at h
    rename_i d r' _
    split at h
    · simp at h
    rename_i used hused
    obtain ⟨others, ho, rfl⟩ := map_eq_ok.mp h
    intro b hb
    rcases List.mem_cons.mp hb with rfl | hb
    · exact ⟨item, d, hused⟩
    · exact ih ho b hb

end Registry

namespace Edit

open Forest

variable {α β : Type} {P : Content → Prop}

/-- An edit does nothing but elementary changes, also where it ends in a fault. -/
def Makes (P : Content → Prop) (e : Edit α) : Prop := ∀ f, Changes P f (e.run f).2

theorem makes_pure (a : α) : Makes P (pure a : Edit α) := fun _ => .refl

theorem makes_throw (fault : Fault) : Makes P (throw fault : Edit α) := fun _ => .refl

theorem makes_get : Makes P (get : Edit Forest) := fun _ => .refl

theorem makes_declare {c : Content} (hc : P c) : Makes P (declare c) :=
  fun f => .single (.declare f hc)

theorem makes_bind {e : Edit α} {next : α → Edit β} (he : Makes P e)
    (hn : ∀ a, Makes P (next a)) : Makes P (e >>= next) := by
  intro f
  rw [run_bind]
  have h := he f
  rcases hr : e.run f with ⟨r, g⟩
  rw [hr] at h
  cases r with
  | error fault => exact h
  | ok a => exact h.trans (hn a g)

/-- After a look at the forest, what was seen may be used about the same forest. -/
theorem makes_inspect_bind {look : Forest → Except Fault α} {next : α → Edit β}
    (h : ∀ f a, look f = .ok a → Changes P f ((next a).run f).2) :
    Makes P (inspect look >>= next) := by
  intro f
  rw [run_bind, run_inspect]
  cases hl : look f with
  | error fault => exact .refl
  | ok a => exact h f a hl

theorem makes_mapM {e : α → Edit β} {as : List α} (h : ∀ a ∈ as, Makes P (e a)) :
    Makes P (as.mapM e) := by
  induction as with
  | nil => exact makes_pure []
  | cons a as ih =>
    have hrest := ih fun x hx => h x (List.mem_cons_of_mem a hx)
    rw [List.mapM_cons]
    exact makes_bind (h a List.mem_cons_self) fun b =>
      makes_bind hrest fun bs => makes_pure (b :: bs)

end Edit

namespace Forest

open Edit

variable {P Q : Content → Prop}

theorem CoversUnits.mono (hP : CoversUnits P) (h : ∀ c, P c → Q c) : CoversUnits Q where
  package name := h _ (hP.package name)
  importing target c hc := h c (hP.importing target c hc)
  importingStatic target member c hc := h c (hP.importingStatic target member c hc)

theorem CoversUnits.of_types (hP : CoversUnits P) {r : Registry} {types : List ExternalType}
    {contents : List Content}
    (h : (r.collect .anyType id (fun _ d => Content.importing d) types).1 = .ok contents) :
    ∀ c ∈ contents, P c := by
  intro c hc
  obtain ⟨_, d, hd⟩ := Registry.exists_use_of_mem_collect h c hc
  exact hP.importing d c hd

theorem CoversUnits.of_members (hP : CoversUnits P) {r : Registry} {members : List ExternalMember}
    {contents : List Content}
    (h : (r.collect .anyType ExternalMember.declaringType
      (fun m d => Content.importingStatic d m.name) members).1 = .ok contents) :
    ∀ c ∈ contents, P c := by
  intro c hc
  obtain ⟨member, d, hd⟩ := Registry.exists_use_of_mem_collect h c hc
  exact hP.importingStatic d member.name c hd

theorem makes_register (id : DeclId) (o : Owner) : Makes P (register id o) := by
  apply makes_inspect_bind
  intro f verdict h
  cases verdict with
  | alreadyThere => exact .refl
  | pending =>
    obtain ⟨x, kind, ha⟩ := checkRegistration_eq_pending_iff.mp h
    show Changes P f ((commit id o).run f).2
    rw [ha.run_commit]
    exact .single (.attach h)

theorem makes_add (type id : DeclId) : Makes P (add type id) :=
  makes_inspect_bind fun f _ _ => makes_register id (.type type) f

def pendingStep (f : Forest) (o : Owner) (found : List DeclId) (id : DeclId) :
    Except Fault (List DeclId) := do
  let verdict ← f.checkRegistration id o
  return if verdict = .pending ∧ id ∉ found then found ++ [id] else found

theorem pending_eq_foldlM (f : Forest) (o : Owner) (ids : List DeclId) :
    f.pending o ids = ids.foldlM (f.pendingStep o) [] := rfl

/-- Declarations that may all be registered at one owner, none of them twice. -/
def Batch (f : Forest) (o : Owner) (ids : List DeclId) : Prop :=
  ids.Nodup ∧ ∀ id ∈ ids, f.checkRegistration id o = .ok .pending

theorem pendingStep_batch {f : Forest} {o : Owner} {found next : List DeclId} {id : DeclId}
    (hb : f.Batch o found) (h : f.pendingStep o found id = .ok next) : f.Batch o next := by
  obtain ⟨verdict, hv, h⟩ := bind_eq_ok.mp h
  simp only [pure_eq_ok, Except.ok.injEq] at h
  subst h
  split
  · rename_i hcond
    obtain ⟨rfl, hid⟩ := hcond
    refine ⟨?_, ?_⟩
    · simpa [List.nodup_append, hb.1] using fun a ha (he : a = id) => hid (he ▸ ha)
    · intro x hx
      rcases List.mem_append.mp hx with hx | hx
      · exact hb.2 x hx
      · rw [List.mem_singleton.mp hx, hv]
  · exact hb

theorem foldlM_pendingStep_batch {f : Forest} {o : Owner} {ids start found : List DeclId}
    (hb : f.Batch o start) (h : ids.foldlM (f.pendingStep o) start = .ok found) :
    f.Batch o found := by
  induction ids generalizing start with
  | nil =>
    obtain rfl : start = found := by simpa using h
    exact hb
  | cons id ids ih =>
    rw [List.foldlM_cons] at h
    obtain ⟨next, hnext, h⟩ := bind_eq_ok.mp h
    exact ih (pendingStep_batch hb hnext) h

theorem pending_batch {f : Forest} {o : Owner} {ids found : List DeclId}
    (h : f.pending o ids = .ok found) : f.Batch o found := by
  rw [pending_eq_foldlM] at h
  exact foldlM_pendingStep_batch ⟨List.nodup_nil, by simp⟩ h

/-- What is left of a batch after the first of it became a member is a batch. -/
theorem Batch.after_attach {f : Forest} {t id : DeclId} {ids : List DeclId}
    (h : f.Batch (.type t) (id :: ids)) : (f.attach id (.type t)).Batch (.type t) ids := by
  obtain ⟨hid, hn⟩ := List.nodup_cons.mp h.1
  refine ⟨hn, fun x hx => ?_⟩
  obtain ⟨_, _, ha⟩ := checkRegistration_eq_pending_iff.mp (h.2 id List.mem_cons_self)
  obtain ⟨y, kind, hb⟩ := checkRegistration_eq_pending_iff.mp (h.2 x (List.mem_cons_of_mem id hx))
  have hne : id ≠ x := fun he => hid (he ▸ hx)
  exact checkRegistration_eq_pending_iff.mpr ⟨y, kind, ha.after_attach hb hne⟩

/-- Committing a batch attaches one declaration after the other, and nothing stops it. -/
theorem Batch.run_commit {f : Forest} {t : DeclId} {ids : List DeclId}
    (h : f.Batch (.type t) ids) :
    Edit.run (ids.forM fun id => commit id (.type t)) f =
      (.ok (), ids.foldl (fun f id => f.attach id (.type t)) f) := by
  induction ids generalizing f with
  | nil => rfl
  | cons id ids ih =>
    obtain ⟨_, _, ha⟩ := checkRegistration_eq_pending_iff.mp (h.2 id List.mem_cons_self)
    exact (run_bind_of_ok ha.run_commit).trans (ih h.after_attach)

theorem Batch.changes {f : Forest} {t : DeclId} {ids : List DeclId}
    (h : f.Batch (.type t) ids) :
    Changes P f (ids.foldl (fun f id => f.attach id (.type t)) f) := by
  induction ids generalizing f with
  | nil => exact .refl
  | cons id ids ih => exact .head (.attach (h.2 id List.mem_cons_self)) (ih h.after_attach)

theorem makes_addAll (type : DeclId) (ids : List DeclId) : Makes P (addAll type ids) := by
  refine makes_inspect_bind fun f _ _ => makes_inspect_bind (fun f found h => ?_) f
  rw [(pending_batch h).run_commit]
  exact (pending_batch h).changes

theorem makes_addNew (type : DeclId) {c : Content} (hc : P c) : Makes P (addNew type c) :=
  makes_bind (makes_declare hc) fun id => makes_bind (makes_add type id) fun _ => makes_pure id

theorem makes_setPackageDefinition (u : UnitId) (id : DeclId) :
    Makes P (setPackageDefinition u id) := by
  apply makes_inspect_bind
  intro f d _
  cases d.content with
  | package name => exact makes_register id (.unit u) f
  | _ => exact makes_bind makes_get (fun _ => makes_throw _) f

theorem makes_setPackage (hP : CoversUnits P) (u : UnitId) (name : String) :
    Makes P (setPackage u name) :=
  makes_inspect_bind fun f _ _ =>
    makes_bind (makes_declare (hP.package name))
      (fun id => makes_bind (makes_setPackageDefinition u id) fun _ => makes_pure id) f

theorem makes_importOnce (u : UnitId) {c : Content} (hc : P c) : Makes P (importOnce u c) := by
  apply makes_inspect_bind
  intro f found _
  cases found with
  | some id => exact .refl
  | none =>
    exact makes_bind (makes_declare hc)
      (fun id => makes_bind (makes_register id (.unit u)) fun _ => makes_pure id) f

theorem makes_importType (hP : CoversUnits P) (u : UnitId) (target : Descriptor) :
    Makes P (importType u target) := by
  apply makes_inspect_bind
  intro f _ _
  cases hc : Content.importing target with
  | error fault => exact .refl
  | ok c => exact makes_importOnce u (hP.importing target c hc) f

theorem importCollected_changes (f : Forest) (u : UnitId)
    {collected : Except Fault (List Content) × Registry}
    (hc : ∀ contents, collected.1 = .ok contents → ∀ c ∈ contents, P c) :
    Changes P f (f.importCollected u collected).2.1 := by
  rcases collected with ⟨result, r⟩
  cases result with
  | error fault => exact .refl
  | ok contents => exact makes_mapM (fun c hm => makes_importOnce u (hc contents rfl c hm)) f

theorem importTypes_changes (hP : CoversUnits P) (f : Forest) (r : Registry) (u : UnitId)
    (types : List ExternalType) : Changes P f (f.importTypes r u types).2.1 := by
  unfold importTypes
  cases f.unit u with
  | error fault => exact .refl
  | ok unit =>
    exact importCollected_changes f u fun _ hok => hP.of_types hok

theorem importStatic_changes (hP : CoversUnits P) (f : Forest) (r : Registry) (u : UnitId)
    (members : List ExternalMember) : Changes P f (f.importStatic r u members).2.1 := by
  unfold importStatic
  cases f.unit u with
  | error fault => exact .refl
  | ok unit =>
    cases members.find? fun m => !m.isStatic with
    | some m => exact .refl
    | none =>
      exact importCollected_changes f u fun _ hok => hP.of_members hok

theorem makes_setModifiers (id : DeclId) (m : Modifiers) : Makes P (setModifiers id m) :=
  makes_inspect_bind fun _ _ h => .single (.setModifiers h)

theorem makes_extend (id : DeclId) (super : Descriptor) : Makes P (extend id super) := by
  apply makes_inspect_bind
  intro f t ht
  cases he : t.extending super with
  | error fault => exact .refl
  | ok t' => exact .single (.extend (typeDefinition_eq_ok_iff.mp ht) he)

theorem makes_comment (id : DeclId) (change : Comments → Comments) : Makes P (comment id change) :=
  makes_inspect_bind fun f _ _ => .single (.comment f id change)

theorem makes_addSuperInterface (id : DeclId) (face : Descriptor) :
    Makes P (addSuperInterface id face) := by
  apply makes_inspect_bind
  intro f t _
  exact Relation.ReflTransGen.single (.implement f id face)

theorem makes_definedType (id : DeclId) : Makes P (definedType id) := by
  apply makes_inspect_bind
  intro f t _
  exact Relation.ReflTransGen.single (.issue f id (t.issuer.getD f.number))

/-- Every operation is a sequence of elementary changes. -/
theorem perform_changes (hP : CoversUnits P) {op : Operation} (hop : ∀ c ∈ op.contents, P c)
    (f : Forest) : Changes P f (op.perform f).2 := by
  cases op with
  | declare c => exact makes_declare (hop c List.mem_cons_self) f
  | newUnit => exact .single (.newUnit f)
  | register id o => exact makes_register id o f
  | add type id => exact makes_add type id f
  | addAll type ids => exact makes_addAll type ids f
  | addNew type c => exact makes_addNew type (hop c List.mem_cons_self) f
  | addToUnit u id => exact makes_register id (.unit u) f
  | setPackage u name => exact makes_setPackage hP u name f
  | setPackageDefinition u id => exact makes_setPackageDefinition u id f
  | importType u target => exact makes_importType hP u target f
  | importTypes r u types => exact importTypes_changes hP f r u types
  | importStatic r u members => exact importStatic_changes hP f r u members
  | setModifiers id m => exact makes_setModifiers id m f
  | extend id super => exact makes_extend id super f
  | addSuperInterface id face => exact makes_addSuperInterface id face f
  | setDoc id text => exact makes_comment id _ f
  | setBlock id text => exact makes_comment id _ f
  | addLine id text => exact makes_comment id _ f
  | definedType id => exact makes_definedType id f
  | fork number => exact .single (.fork f number)

theorem after_changes (f : Forest) (ops : List Operation) :
    Changes (fun _ => True) f (f.after ops) := by
  induction ops generalizing f with
  | nil => exact .refl
  | cons op ops ih =>
    exact (perform_changes coversUnits_true (fun _ _ => trivial) f).trans (ih (op.perform f).2)

/-- What survives every elementary change survives any number of them. -/
theorem Changes.keep {I : Forest → Prop} (step : ∀ {f g}, Change P f g → I f → I g) {f g : Forest}
    (h : Changes P f g) (hf : I f) : I g := by
  induction h with
  | refl => exact hf
  | tail _ hc ih => exact step hc ih

theorem Reachable.induction {I : Forest → Prop} (start : ∀ number, I (empty number))
    (step : ∀ {f g}, Change (fun _ => True) f g → I f → I g) {f : Forest} (h : f.Reachable) :
    I f := by
  obtain ⟨number, ops, rfl⟩ := h
  exact Changes.keep step (after_changes (empty number) ops) (start number)

end Forest

end DeclForest
