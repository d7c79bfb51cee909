import DeclForest.Proofs.Session
import Mathlib.Data.Finset.Card

/-!
What a registry holds has no part in its verdicts. Whether a reference is accepted, and as what, is
read off the position and the reference alone, so a registry with entries decides like an empty one;
its entries only say which descriptor of the named type is the answer. A registry that was asked for
nothing but references therefore holds what it accepted, each type once.
-/

namespace DeclForest

/-- The type that a reference names. A primitive reference names the primitive of its keyword, if
there is one. -/
def ExternalType.key? (t : ExternalType) : Option TypeKey :=
  match t.kind with
  | .primitiveType => (Primitive.ofKeyword? t.qualifiedName).map .primitive
  | kind => some (.external t.qualifiedName kind)

namespace ExternalType

variable {t : ExternalType} {x : Referent} {name : String}

theorem key?_of_ne (h : t.kind ≠ .primitiveType) :
    t.key? = some (.external t.qualifiedName t.kind) := by
  unfold key?
  cases hk : t.kind <;> simp_all

theorem key?_of_referent (h : t.referent = .ok x) : t.key? = some x.key := by
  by_cases hk : t.kind = .primitiveType
  · unfold referent at h
    rw [hk] at h
    cases hp : Primitive.ofKeyword? t.qualifiedName with
    | none => simp [hp] at h
    | some p =>
      simp only [hp, Except.ok.injEq] at h
      simp [key?, hk, hp, ← h, Referent.key]
  · obtain rfl := Except.ok.inj ((Registry.referent_of_ne hk).symm.trans h)
    exact key?_of_ne hk

/-- Only references of a kind other than primitive go by their name. -/
theorem key?_eq_external_iff :
    (∃ kind, t.key? = some (.external name kind)) ↔
      t.kind ≠ .primitiveType ∧ t.qualifiedName = name := by
  by_cases hk : t.kind = .primitiveType
  · simp [key?, hk]
  · simp [key?_of_ne hk, hk]

end ExternalType

namespace Descriptor

variable {d : Descriptor} {name : String} {kind : ExternalKind}

theorem key_eq_external_iff : d.key = .external name kind ↔
    ∃ t, d.referent = .external t ∧ t.qualifiedName = name ∧ t.kind = kind := by
  unfold key
  cases d.referent <;> simp [Referent.key]

theorem isClass_of_key (h : d.key = .external name kind) (hk : kind = .classType) :
    d.isClass = true := by
  obtain ⟨t, hx, -, rfl⟩ := key_eq_external_iff.mp h
  simp [isClass, hx, hk]

theorem isInterface_of_key (h : d.key = .external name kind) (hk : kind.isInterfaceLike = true) :
    d.isInterface = true := by
  obtain ⟨t, hx, -, rfl⟩ := key_eq_external_iff.mp h
  simp [isInterface, hx, hk]

end Descriptor

namespace Registry

def keys (r : Registry) : List TypeKey := r.entries.map Descriptor.key

variable {r r' : Registry} {position : Position} {t : ExternalType} {d : Descriptor}

theorem size_keys (r : Registry) : r.keys.length = r.size := List.length_map _

theorem not_mem_keys_of_find? {key : TypeKey} (h : r.find? key = none) : key ∉ r.keys := by
  simpa [find?, keys] using h

theorem contains_iff {name : String} :
    r.contains name = true ↔ ∃ kind, TypeKey.external name kind ∈ r.keys := by
  have hnamed : ∀ d : Descriptor, d.external?.map ExternalType.qualifiedName = some name ↔
      ∃ kind, d.key = .external name kind := by
    intro d
    simp only [Descriptor.key_eq_external_iff]
    cases hx : d.referent <;> simp [Descriptor.external?, hx]
  simp only [contains, List.any_eq_true, beq_iff_eq, hnamed, keys, List.mem_map]
  constructor
  · rintro ⟨d, hd, kind, hk⟩
    exact ⟨kind, d, hd, hk⟩
  · rintro ⟨kind, d, hd, hk⟩
    exact ⟨d, hd, kind, hk⟩

/-- The position and the kind of a reference decide what it is accepted as. -/
theorem Canonical.key_wrap (hr : r.Canonical) (position : Position) (t : ExternalType) :
    (r.wrap position t).map (fun done => done.1.key) =
      position.check t >>= fun _ => t.referent.map Referent.key := by
  unfold Registry.wrap
  cases position.check t with
  | error fault => rfl
  | ok =>
    cases hfind : r.find? (.external t.qualifiedName t.kind) with
    | some known =>
      rw [ok_bind, ok_bind, referent_of_ne (hr.kind_ne_of_find? hfind)]
      exact congrArg Except.ok (key_of_find? hfind)
    | none =>
      cases t.referent with
      | error fault => rfl
      | ok x => exact congrArg Except.ok (r.key_adopt ⟨r.number, x⟩)

theorem Canonical.key_of_wrap (hr : r.Canonical) (h : r.wrap position t = .ok (d, r')) :
    t.key? = some d.key := by
  have hkey := hr.key_wrap position t
  rw [h] at hkey
  obtain ⟨-, -, hx⟩ := bind_eq_ok.mp hkey.symm
  obtain ⟨x, hx, hk⟩ := map_eq_ok.mp hx
  rw [ExternalType.key?_of_referent hx, hk]

/-- What is accepted is what its position wants. -/
theorem Canonical.admitted_of_wrap (hr : r.Canonical) (h : r.wrap position t = .ok (d, r')) :
    (position = .plainClass → d.isClass = true) ∧
      (position = .interfaceLike → d.isInterface = true) := by
  have hadmits : position.admits t.kind = true := (check_eq_ok_iff.mp (hr.wrap_eq_ok h).1).1
  have hkey : t.kind ≠ .primitiveType → d.key = .external t.qualifiedName t.kind := by
    intro hk
    exact Option.some.inj ((hr.key_of_wrap h).symm.trans (ExternalType.key?_of_ne hk))
  constructor
  · rintro rfl
    have hclass : t.kind = .classType := by simpa [Position.admits] using hadmits
    exact Descriptor.isClass_of_key (hkey (by simp [hclass])) hclass
  · rintro rfl
    refine Descriptor.isInterface_of_key (hkey ?_) hadmits
    intro hk
    simp [Position.admits, hk, ExternalKind.isInterfaceLike] at hadmits

/-- The one entry that an accepted reference can add is its answer. -/
theorem Canonical.entries_wrap (hr : r.Canonical) (h : r.wrap position t = .ok (d, r')) :
    r'.entries = r.entries ∨ r.find? d.key = none ∧ r'.entries = r.entries ++ [d] := by
  obtain ⟨-, x, -, hi⟩ := hr.wrap_eq_ok h
  unfold intern at hi
  cases hfind : r.find? (Descriptor.mk r.number x).key with
  | some known =>
    rw [adopt_of_holds hfind] at hi
    exact .inl ((Prod.mk.inj hi).2 ▸ rfl)
  | none =>
    rw [adopt_of_unknown hfind] at hi
    obtain ⟨rfl, rfl⟩ := Prod.mk.inj hi
    exact .inr ⟨hfind, rfl⟩

theorem Canonical.mem_keys_wrap (hr : r.Canonical) (h : r.wrap position t = .ok (d, r'))
    (key : TypeKey) : key ∈ r'.keys ↔ key ∈ r.keys ∨ t.key? = some key := by
  have hheld : d.key ∈ r'.keys := List.mem_map_of_mem (mem_of_find? (hr.wrap_holds h))
  rw [hr.key_of_wrap h, Option.some.injEq]
  rcases hr.entries_wrap h with he | ⟨-, he⟩
  · have hkeys : r'.keys = r.keys := congrArg (List.map Descriptor.key) he
    rw [hkeys] at hheld ⊢
    exact ⟨.inl, Or.rec id fun hk => hk ▸ hheld⟩
  · have hkeys : r'.keys = r.keys ++ [d.key] := by simp [keys, he]
    rw [hkeys, List.mem_append, List.mem_singleton, eq_comm (a := key)]

end Registry

namespace Workspace

variable {w : Workspace} {n m : Nat}

theorem registry_setRegistry_ne (h : m ≠ n) (r : Registry) :
    (w.setRegistry n r).registry m = w.registry m := by
  unfold registry setRegistry
  simp [Array.getElem?_setIfInBounds_ne h.symm]

theorem setRegistry_registry (w : Workspace) (n : Nat) : w.setRegistry n (w.registry n) = w := by
  have hsame : w.registries.setIfInBounds n (w.registry n) = w.registries := by
    unfold registry
    by_cases hn : n < w.registries.size <;> simp [Array.setIfInBounds, hn]
  unfold setRegistry
  rw [hsame]

end Workspace

namespace Call

variable {w : Workspace} {r m : Nat} {position : Position} {t : ExternalType} {c : Call}

theorem perform_wrap_of_error {fault : Fault}
    (h : (w.registry r).wrap position t = .error fault) :
    (wrap r position t).perform w = (.error fault, w) := by
  rw [perform_wrap, Registry.wrapEach_singleton, h]
  exact congrArg (Prod.mk _) (w.setRegistry_registry r)

theorem perform_wrap_of_ok {d : Descriptor} {next : Registry}
    (h : (w.registry r).wrap position t = .ok (d, next)) :
    (wrap r position t).perform w = (.ok [d], w.setRegistry r next) := by
  rw [perform_wrap, Registry.wrapEach_singleton, h]

def isWrap : Call → Bool
  | wrap .. => true
  | _ => false

theorem exists_of_isWrap (h : c.isWrap = true) (hr : c.registry? = some r) :
    ∃ position t, c = .wrap r position t := by
  cases c with
  | wrap r' position t => exact ⟨position, t, by rw [Option.some.inj hr]⟩
  | _ => simp [isWrap] at h

/-- A call leaves the registries alone that it is not about. -/
theorem registry_perform (h : c.registry? ≠ some m) :
    (c.perform w).2.registry m = w.registry m := by
  have hne : ∀ r, c.registry? = some r → m ≠ r := by
    rintro r hr rfl
    exact h hr
  cases c with
  | newRegistry =>
    rw [perform_newRegistry]
    exact w.registry_push m
  | newForest | fork _ => rfl
  | edit forest e =>
    rw [perform_edit]
    rfl
  | primitive r p => exact Workspace.registry_setRegistry_ne (hne r rfl) _
  | rewrap r d => exact Workspace.registry_setRegistry_ne (hne r rfl) _
  | wrap r position t =>
    rw [perform_wrap]
    exact Workspace.registry_setRegistry_ne (hne r rfl) _
  | superclassOf r d =>
    rw [perform_superclassOf]
    rcases (w.registry r).superclassOf w.superclasses d with fault | ⟨answer, next, memo⟩
    · rfl
    · exact Workspace.registry_setRegistry_ne (hne r rfl) _
  | interfacesOf r d =>
    rw [perform_interfacesOf]
    exact Workspace.registry_setRegistry_ne (hne r rfl) _
  | wrapAll r c =>
    rw [perform_wrapAll]
    exact Workspace.registry_setRegistry_ne (hne r rfl) _
  | importTypes forest r u types =>
    rw [perform_importTypes]
    exact Workspace.registry_setRegistry_ne (hne r rfl) _
  | importStatic forest r u members =>
    rw [perform_importStatic]
    exact Workspace.registry_setRegistry_ne (hne r rfl) _

end Call

/-- How a reference is answered, whatever the registry holds already: accepted as the same type or
refused with the same fault as by any empty registry, and as what the position wants. A refusal
changes nothing, and a reference that is accepted adds its answer or nothing. -/
structure Transparent (w : Workspace) (r : Nat) (position : Position) (t : ExternalType)
    (result : Except Fault (List Descriptor) × Workspace) : Prop where
  verdict : ∀ n, result.1.map (·.map Descriptor.key) =
    ((Registry.empty n).wrap position t).map fun done => [done.1.key]
  answer : ∀ ds, result.1 = .ok ds → ∃ d, ds = [d] ∧ t.key? = some d.key ∧
    (position = .plainClass → d.isClass = true) ∧
    (position = .interfaceLike → d.isInterface = true)
  refused : ∀ fault, result.1 = .error fault → result.2 = w
  accepted : ∀ ds, result.1 = .ok ds →
    (result.2.registry r).entries = (w.registry r).entries ∨
      ∃ d, ds = [d] ∧ d.key ∉ (w.registry r).keys ∧
        (result.2.registry r).entries = (w.registry r).entries ++ [d]
  others : ∀ m, m ≠ r → result.2.registry m = w.registry m

theorem Workspace.Sound.transparent {w : Workspace} {r : Nat} (hw : w.Sound)
    (hn : r < w.registries.size) (position : Position) (t : ExternalType) :
    Transparent w r position t ((Call.wrap r position t).perform w) := by
  have hr : (w.registry r).Canonical := hw.canonical r
  have hothers : ∀ m, m ≠ r →
      ((Call.wrap r position t).perform w).2.registry m = w.registry m := fun m hm =>
    Call.registry_perform fun hr => hm (Option.some.inj hr).symm
  have hverdict : ∀ n, ((w.registry r).wrap position t).map (fun done => done.1.key) =
      ((Registry.empty n).wrap position t).map fun done => done.1.key := fun n =>
    (hr.key_wrap position t).trans ((Registry.empty_canonical n).key_wrap position t).symm
  cases h : (w.registry r).wrap position t with
  | error fault =>
    rw [Call.perform_wrap_of_error h] at hothers ⊢
    refine ⟨fun n => ?_, by simp, fun _ _ => rfl, by simp, hothers⟩
    have hempty : (Registry.empty n).wrap position t = .error fault := by
      rw [← map_eq_error, ← hverdict n, h]
      rfl
    rw [hempty]
    rfl
  | ok done =>
    obtain ⟨d, next⟩ := done
    rw [Call.perform_wrap_of_ok h] at hothers ⊢
    refine ⟨fun n => ?_, ?_, by simp, ?_, hothers⟩
    · obtain ⟨done, hdone, hkey⟩ := map_eq_ok.mp ((hverdict n).symm.trans (congrArg _ h))
      rw [hdone]
      simp [Except.map, hkey]
    · rintro ds ⟨⟩
      exact ⟨d, rfl, hr.key_of_wrap h, hr.admitted_of_wrap h⟩
    · rintro ds ⟨⟩
      rw [Workspace.registry_setRegistry hn, if_pos rfl]
      rcases hr.entries_wrap h with he | ⟨hnew, he⟩
      · exact .inl he
      · exact .inr ⟨d, rfl, Registry.not_mem_keys_of_find? hnew, he⟩

def Event.accepted? (r : Nat) : Event → Option ExternalType
  | ⟨.wrap r' _ t, .ok _⟩ => if r' = r then some t else none
  | _ => none

theorem Event.accepted?_eq_some_iff {r : Nat} {e : Event} {t : ExternalType} :
    e.accepted? r = some t ↔ ∃ position ds, e = ⟨.wrap r position t, .ok ds⟩ := by
  rcases e with ⟨c, fault | ds⟩ <;> cases c <;> simp [accepted?, and_comm]

namespace Session

variable {s s' : Session} {c : Call} {r : Nat}

def accepted (s : Session) (r : Nat) : List ExternalType := s.history.filterMap (Event.accepted? r)

def OnlyWraps (s : Session) (r : Nat) : Prop :=
  ∀ e ∈ s.history, e.call.registry? = some r → e.call.isWrap = true

instance (s : Session) (r : Nat) : Decidable (s.OnlyWraps r) :=
  inferInstanceAs (Decidable (∀ e ∈ s.history, _ → _))

theorem accepted_after (s : Session) (c : Call) (r : Nat) : (s.after c).accepted r =
    s.accepted r ++ (Event.accepted? r ⟨c, (c.perform s.workspace).1⟩).toList := by
  unfold accepted after
  rw [List.filterMap_append]
  cases h : Event.accepted? r ⟨c, (c.perform s.workspace).1⟩ <;> simp [h]

theorem OnlyWraps.of_after (h : (s.after c).OnlyWraps r) :
    s.OnlyWraps r ∧ (c.registry? = some r → c.isWrap = true) := by
  constructor
  · exact fun e he => h e (List.mem_append_left _ he)
  · exact h _ (List.mem_append_right _ (List.mem_singleton_self _))

/-- The registry holds the types of some references and no others. -/
def Stores (s : Session) (r : Nat) (types : List ExternalType) : Prop :=
  ∀ key, key ∈ (s.workspace.registry r).keys ↔ ∃ t ∈ types, t.key? = some key

/-- One more call keeps a registry that was asked for nothing but references to the types that it
accepted, whether the call is about this registry or about another one. -/
theorem Sound.stores_after (hs : s.Sound) (hc : s.Allows c)
    (honly : c.registry? = some r → c.isWrap = true)
    (h : s.Stores r (s.accepted r)) : (s.after c).Stores r ((s.after c).accepted r) := by
  rw [accepted_after]
  by_cases habout : c.registry? = some r
  · obtain ⟨position, t, rfl⟩ := Call.exists_of_isWrap (honly habout) habout
    cases hwrap : (s.workspace.registry r).wrap position t with
    | error fault =>
      have hsame := Call.perform_wrap_of_error hwrap
      intro key
      simpa [Session.after, hsame, Event.accepted?] using h key
    | ok done =>
      obtain ⟨d, next⟩ := done
      have hdone := Call.perform_wrap_of_ok hwrap
      have hnext : (s.after (.wrap r position t)).workspace.registry r = next := by
        simp only [Session.after, hdone, Workspace.registry_setRegistry (hc.registry r rfl),
          if_pos]
      intro key
      rw [hnext, (hs.workspace.canonical r).mem_keys_wrap hwrap, h key, hdone]
      simp [Event.accepted?, or_and_right, exists_or]
  · have hsame : (s.after c).workspace.registry r = s.workspace.registry r :=
      Call.registry_perform habout
    have hnone : Event.accepted? r ⟨c, (c.perform s.workspace).1⟩ = none := by
      apply Option.eq_none_iff_forall_ne_some.mpr
      intro t ht
      obtain ⟨position, ds, he⟩ := Event.accepted?_eq_some_iff.mp ht
      obtain ⟨rfl, -⟩ := Event.mk.inj he
      exact habout rfl
    intro key
    simpa [hsame, hnone] using h key

theorem Reachable.stores (h : s.Reachable) (honly : s.OnlyWraps r) :
    s.Stores r (s.accepted r) := by
  induction h with
  | refl =>
    intro key
    cases r <;> simp [start, accepted, Workspace.initial, Workspace.registry, Registry.empty,
      Registry.keys]
  | tail hsteps hstep ih =>
    obtain ⟨hc⟩ := hstep
    obtain ⟨hbefore, hlast⟩ := honly.of_after
    exact (Steps.sound hsteps start_sound).stores_after hc hlast (ih hbefore)

/-- What a registry is that was asked for nothing but references, in any order, with repetitions and
refusals: the set of the types that it accepted. -/
structure HoldsAccepted (s : Session) (r : Nat) : Prop where
  stores : s.Stores r (s.accepted r)
  size : (s.workspace.registry r).size =
    ((s.accepted r).filterMap ExternalType.key?).toFinset.card
  contains : ∀ name, (s.workspace.registry r).contains name = true ↔
    ∃ t ∈ s.accepted r, t.kind ≠ .primitiveType ∧ t.qualifiedName = name

theorem Reachable.holdsAccepted (h : s.Reachable) (honly : s.OnlyWraps r) :
    s.HoldsAccepted r := by
  have hstores : s.Stores r (s.accepted r) := h.stores honly
  refine ⟨hstores, ?_, fun name => ?_⟩
  · have hdistinct : (s.workspace.registry r).keys.Nodup :=
      ((Steps.sound h start_sound).workspace.canonical r).distinct
    rw [← Registry.size_keys, ← List.toFinset_card_of_nodup hdistinct]
    congr 1
    ext key
    rw [List.mem_toFinset, List.mem_toFinset, hstores key, List.mem_filterMap]
  · simp only [Registry.contains_iff, hstores _, ← ExternalType.key?_eq_external_iff]
    constructor
    · rintro ⟨kind, t, ht, hk⟩
      exact ⟨t, ht, kind, hk⟩
    · rintro ⟨t, ht, kind, hk⟩
      exact ⟨kind, t, ht, hk⟩

/-- Registries are caches: what they hold is not seen in what they accept, and is what they
accepted. -/
structure Cached (s : Session) : Prop where
  transparent : ∀ r < s.workspace.registries.size, ∀ position t,
    Transparent s.workspace r position t ((Call.wrap r position t).perform s.workspace)
  holdsAccepted : ∀ r, s.OnlyWraps r → s.HoldsAccepted r

theorem reachable_cached (h : s.Reachable) : s.Cached where
  transparent _ hr := (Steps.sound h start_sound).workspace.transparent hr
  holdsAccepted _ := h.holdsAccepted

def sampleReferences : List Call :=
  [.wrap 0 .anyType ⟨"a.Both", .interfaceType, none, []⟩,
   .wrap 0 .plainClass ⟨"a.Both", .interfaceType, none, []⟩,
   .wrap 0 .plainClass ⟨"a.Both", .classType, none, []⟩,
   .wrap 0 .anyType ⟨"int", .classType, none, []⟩, .newRegistry,
   .wrap 0 .anyType ⟨"int", .primitiveType, none, []⟩, .wrap 1 .anyType sampleBase,
   .wrap 0 .interfaceLike ⟨"a.Both", .interfaceType, some sampleBase, []⟩,
   .wrap 0 .anyType ⟨"Int", .primitiveType, none, []⟩]

def referenceSample : Session := sampleReferences.foldl after start

theorem referenceSample_cached : referenceSample.Reachable ∧ referenceSample.Cached ∧
    referenceSample.OnlyWraps 0 ∧ (referenceSample.accepted 0).length = 4 ∧
    (referenceSample.workspace.registry 0).keys = [.external "a.Both" .interfaceType,
      .external "a.Both" .classType, .primitive .int] := by
  have hallowed : start.AllowsAll sampleReferences := by decide +kernel
  exact ⟨hallowed.steps, reachable_cached hallowed.steps, by decide +kernel, by decide +kernel,
    by decide +kernel⟩

end Session

end DeclForest
