import DeclForest.Catalog.Basic
import DeclForest.Proofs.Circulation

/-!
Sessions of several registries. A client calls them in any order, also with descriptors that other
registries answered, and goes on after a refusal. In every session each registry is a table of
canonical descriptors: what it answered is what it answers for that type from then on, so that two
of its answers are one descriptor exactly if they name one type.
-/

namespace DeclForest

inductive Call where
  | newRegistry
  | primitive (r : Nat) (p : Primitive)
  | wrap (r : Nat) (position : Position) (t : ExternalType)
  | rewrap (r : Nat) (d : Descriptor)
  | superclassOf (r : Nat) (d : Descriptor)
  | interfacesOf (r : Nat) (d : Descriptor)
  | wrapAll (r : Nat) (c : Catalog)
  | importTypes (forest r : Nat) (u : UnitId) (types : List ExternalType)
  | importStatic (forest r : Nat) (u : UnitId) (members : List ExternalMember)
  | newForest
  | fork (forest : Nat)
  | edit (forest : Nat) (e : Edit Unit)

namespace Call

def registry? : Call → Option Nat
  | primitive r _ | wrap r _ _ | rewrap r _ | superclassOf r _ | interfacesOf r _ | wrapAll r _
  | importTypes _ r _ _ | importStatic _ r _ _ => some r
  | newRegistry | newForest | fork _ | edit .. => none

/-- The registry whose own descriptors a call answers. A superclass belongs to the descriptor that
it was asked for, and not to the registry. -/
def origin? : Call → Option Nat
  | superclassOf .. => none
  | c => c.registry?

def argument? : Call → Option Descriptor
  | rewrap _ d | superclassOf _ d | interfacesOf _ d => some d
  | _ => none

def answering {α : Type} (work : Work α) (read : α → List Descriptor) (w : Workspace) :
    Except Fault (List Descriptor) × Workspace :=
  ((work.run w).1.map read, (work.run w).2)

def perform : Call → Workspace → Except Fault (List Descriptor) × Workspace
  | newRegistry => answering Work.newRegistry fun _ => []
  | primitive r p => answering (Work.resolve 0 r (.primitive p)) fun d => [d]
  | wrap r position t => answering (Work.resolve 0 r (.wrapped position t)) fun d => [d]
  | rewrap r d => answering (Work.resolve 0 r (.rewrapped (.given d))) fun d => [d]
  | superclassOf r d => answering (Work.superclassOf r d) Option.toList
  | interfacesOf r d => answering (Work.interfacesOf r d) id
  | wrapAll r c => answering (Work.consult r c.wrapAll) id
  | importTypes forest r u types => answering (Work.importTypes forest r u types) fun _ => []
  | importStatic forest r u members => answering (Work.importStatic forest r u members) fun _ => []
  | newForest => answering Work.newForest fun _ => []
  | fork forest => answering (Work.fork forest) fun _ => []
  | edit forest e => answering (Work.edit forest e) fun _ => []

variable (w : Workspace) (r : Nat)

theorem perform_newRegistry : newRegistry.perform w =
    (.ok [], { w with registries := w.registries.push (.empty w.registries.size) }) := rfl

theorem perform_newForest : newForest.perform w =
    (.ok [], { w with forests := w.forests.push (.empty w.forests.size) }) := rfl

theorem perform_fork (forest : Nat) : (fork forest).perform w =
    (.ok [], { w with forests := w.forests.push ((w.forest forest).fork w.forests.size) }) := rfl

theorem perform_primitive (p : Primitive) : (primitive r p).perform w =
    (.ok [((w.registry r).primitive p).1], w.setRegistry r ((w.registry r).primitive p).2) := rfl

/-- One reference is a batch of one. -/
theorem perform_wrap (position : Position) (t : ExternalType) : (wrap r position t).perform w =
    (((w.registry r).wrapEach position [t]).1,
      w.setRegistry r ((w.registry r).wrapEach position [t]).2) := by
  show answering (Work.consult r _) _ w = _
  rw [answering, Work.run_consult, Registry.wrapEach_singleton]
  cases (w.registry r).wrap position t <;> rfl

theorem perform_rewrap (d : Descriptor) : (rewrap r d).perform w =
    (.ok [((w.registry r).rewrap d).1], w.setRegistry r ((w.registry r).rewrap d).2) := rfl

theorem perform_superclassOf (d : Descriptor) : (superclassOf r d).perform w =
    match (w.registry r).superclassOf w.superclasses d with
    | .error fault => (.error fault, w)
    | .ok (answer, registry, memo) =>
      (.ok answer.toList, { w.setRegistry r registry with superclasses := memo }) := by
  show answering (Work.superclassOf r d) _ w = _
  rw [answering, Work.run_superclassOf]
  cases (w.registry r).superclassOf w.superclasses d <;> rfl

theorem perform_consult (call : Registry → Except Fault (List Descriptor) × Registry) :
    answering (Work.consult r call) id w =
      ((call (w.registry r)).1, w.setRegistry r (call (w.registry r)).2) := by
  rw [answering, Work.run_consult, Except.map_id]
  rfl

theorem perform_interfacesOf (d : Descriptor) : (interfacesOf r d).perform w =
    (((w.registry r).interfacesOf d).1, w.setRegistry r ((w.registry r).interfacesOf d).2) :=
  perform_consult w r fun registry => registry.interfacesOf d

theorem perform_wrapAll (c : Catalog) : (wrapAll r c).perform w =
    ((c.wrapAll (w.registry r)).1, w.setRegistry r (c.wrapAll (w.registry r)).2) :=
  perform_consult w r c.wrapAll

theorem perform_edit (forest : Nat) (e : Edit Unit) : (edit forest e).perform w =
    ((e.run (w.forest forest)).1.map fun _ => [],
      w.setForest forest (e.run (w.forest forest)).2) := by
  show answering (Work.edit forest e) _ w = _
  rw [answering, Work.run_edit]

theorem perform_batch {α : Type} (forest : Nat)
    (call : Forest → Registry → Except Fault α × Forest × Registry) :
    answering (Work.batch forest r call) (fun _ => []) w =
      let done := call (w.forest forest) (w.registry r)
      (done.1.map fun _ => [], (w.setForest forest done.2.1).setRegistry r done.2.2) := by
  rw [answering, Work.run_batch]

theorem perform_importTypes (forest : Nat) (u : UnitId) (types : List ExternalType) :
    (importTypes forest r u types).perform w =
      let done := (w.forest forest).importTypes (w.registry r) u types
      (done.1.map fun _ => [], (w.setForest forest done.2.1).setRegistry r done.2.2) :=
  perform_batch w r forest fun f registry => f.importTypes registry u types

theorem perform_importStatic (forest : Nat) (u : UnitId) (members : List ExternalMember) :
    (importStatic forest r u members).perform w =
      let done := (w.forest forest).importStatic (w.registry r) u members
      (done.1.map fun _ => [], (w.setForest forest done.2.1).setRegistry r done.2.2) :=
  perform_batch w r forest fun f registry => f.importStatic registry u members

end Call

namespace Workspace

variable {w : Workspace}

theorem Sound.perform (hw : w.Sound) (c : Call)
    (hr : ∀ r, c.registry? = some r → r < w.registries.size)
    (ha : ∀ d t, c.argument? = some d → d.referent = .external t → w.Genuine d) :
    w.Steps (c.perform w).2 c.origin? (c.perform w).1 := by
  cases c with
  | newRegistry =>
    rw [Call.perform_newRegistry]
    exact hw.steps_of_same (registry_push w) rfl fun _ h => (Except.ok.inj h).symm
  | newForest =>
    rw [Call.perform_newForest]
    exact hw.steps_of_forests fun _ h => (Except.ok.inj h).symm
  | fork forest =>
    rw [Call.perform_fork]
    exact hw.steps_of_forests fun _ h => (Except.ok.inj h).symm
  | edit forest e =>
    rw [Call.perform_edit]
    exact hw.steps_of_forests fun _ => eq_nil_of_map
  | primitive r p =>
    rw [Call.perform_primitive]
    exact hw.steps_of_answered (hr r rfl) (Registry.answered_primitive _ p)
  | wrap r position t =>
    rw [Call.perform_wrap]
    exact hw.steps_of_answered (hr r rfl) ((hw.canonical r).answered_wrapEach position [t])
  | rewrap r d =>
    rw [Call.perform_rewrap]
    exact hw.steps_of_answered (hr r rfl) (Registry.answered_rewrap fun t hx => ha d t rfl hx)
  | superclassOf r d =>
    rw [Call.perform_superclassOf]
    rcases h : (w.registry r).superclassOf w.superclasses d with fault | ⟨answer, r', memo⟩
    · exact hw.steps_of_same (fun _ => rfl) rfl (by simp)
    · exact hw.steps_of_superclassOf (hr r rfl) h
  | interfacesOf r d =>
    rw [Call.perform_interfacesOf]
    exact hw.steps_of_answered (hr r rfl) ((hw.canonical r).answered_wrapEach .interfaceLike _)
  | wrapAll r c =>
    rw [Call.perform_wrapAll]
    exact hw.steps_of_answered (hr r rfl) ((hw.canonical r).answered_wrapEach .anyType c.types)
  | importTypes forest r u types =>
    rw [Call.perform_importTypes]
    exact hw.steps_of_batch (hr r rfl)
      ((w.forest forest).importTypes_grows (hw.canonical r) u types)
  | importStatic forest r u members =>
    rw [Call.perform_importStatic]
    exact hw.steps_of_batch (hr r rfl)
      ((w.forest forest).importStatic_grows (hw.canonical r) u members)

end Workspace

structure Event where
  call : Call
  answer : Except Fault (List Descriptor)

def Event.answers (e : Event) : List Descriptor :=
  match e.answer with
  | .ok ds => ds
  | .error _ => []

theorem Event.mem_answers_iff {e : Event} {d : Descriptor} :
    d ∈ e.answers ↔ ∃ ds, e.answer = .ok ds ∧ d ∈ ds := by
  unfold answers
  cases e.answer <;> simp

structure Session where
  history : List Event
  workspace : Workspace

namespace Session

def start : Session := ⟨[], .initial⟩

def after (s : Session) (c : Call) : Session :=
  ⟨s.history ++ [⟨c, (c.perform s.workspace).1⟩], (c.perform s.workspace).2⟩

def Knows (s : Session) (d : Descriptor) : Prop := ∃ e ∈ s.history, d ∈ e.answers

def Gave (s : Session) (r : Nat) (d : Descriptor) : Prop :=
  ∃ e ∈ s.history, e.call.origin? = some r ∧ d ∈ e.answers ∧ d.isDefined = false

/-- Only registries that were made can be called. Descriptors of external types come from registries
alone; those of primitives and of defined types a client may have made itself. -/
structure Allows (s : Session) (c : Call) : Prop where
  registry : ∀ r ∈ c.registry?, r < s.workspace.registries.size
  argument : ∀ d ∈ c.argument?, d.external?.isSome = true → s.Knows d

instance (s : Session) (d : Descriptor) : Decidable (s.Knows d) :=
  inferInstanceAs (Decidable (∃ e ∈ s.history, d ∈ e.answers))

instance (s : Session) (c : Call) : Decidable (s.Allows c) :=
  decidable_of_iff ((∀ r ∈ c.registry?, r < s.workspace.registries.size) ∧
      ∀ d ∈ c.argument?, d.external?.isSome = true → s.Knows d)
    ⟨fun h => ⟨h.1, h.2⟩, fun h => ⟨h.registry, h.argument⟩⟩

inductive Step : Session → Session → Prop where
  | call {s : Session} {c : Call} : s.Allows c → Step s (s.after c)

abbrev Steps : Session → Session → Prop := Relation.ReflTransGen Step

def Reachable (s : Session) : Prop := start.Steps s

structure Sound (s : Session) : Prop where
  workspace : s.workspace.Sound
  genuine : ∀ d, s.Knows d → d.isDefined = false → s.workspace.Genuine d
  held : ∀ r d, s.Gave r d → (s.workspace.registry r).Holds d

variable {s s' : Session} {c : Call} {r : Nat} {d d' : Descriptor}

theorem start_sound : start.Sound where
  workspace := Workspace.initial_sound
  genuine d hd := by
    obtain ⟨e, he, -⟩ := hd
    simp [start] at he
  held r d hd := by
    obtain ⟨e, he, -⟩ := hd
    simp [start] at he

theorem Sound.steps (hs : s.Sound) (hc : s.Allows c) :
    s.workspace.Steps (s.after c).workspace c.origin? (c.perform s.workspace).1 := by
  refine hs.workspace.perform c hc.registry fun d t hd hx => ?_
  have hknown : s.Knows d := hc.argument d hd (by simp [Descriptor.external?, hx])
  exact hs.genuine d hknown (by simp [Descriptor.isDefined, hx])

theorem Sound.after (hs : s.Sound) (hc : s.Allows c) : (s.after c).Sound := by
  have hstep := hs.steps hc
  refine ⟨hstep.sound, ?_, ?_⟩
  · rintro d ⟨e, he, ha⟩ hd
    rcases List.mem_append.mp he with he | he
    · exact (hs.genuine d ⟨e, he, ha⟩ hd).extends hstep.extend
    · obtain rfl := List.mem_singleton.mp he
      obtain ⟨ds, hds, hm⟩ := Event.mem_answers_iff.mp ha
      exact hstep.genuine ds hds d hm hd
  · rintro r d ⟨e, he, horigin, ha, hd⟩
    rcases List.mem_append.mp he with he | he
    · exact (hs.held r d ⟨e, he, horigin, ha, hd⟩).of_isPrefix (hstep.extend r)
    · obtain rfl := List.mem_singleton.mp he
      obtain ⟨ds, hds, hm⟩ := Event.mem_answers_iff.mp ha
      exact hstep.held r horigin ds hds d hm hd

theorem Steps.sound (h : s.Steps s') (hs : s.Sound) : s'.Sound := by
  induction h with
  | refl => exact hs
  | tail _ hstep ih =>
    obtain ⟨hc⟩ := hstep
    exact ih.after hc

theorem Steps.extends (h : s.Steps s') (hs : s.Sound) : s.workspace.Extends s'.workspace := by
  induction h with
  | refl => exact .refl _
  | tail hsteps hstep ih =>
    obtain ⟨hc⟩ := hstep
    exact ih.trans ((Steps.sound hsteps hs).steps hc).extend

/-- What registries promise in a session: how they store descriptors, that no entry is lost, which
of their answers are one descriptor, and that a descriptor that they answered is its own answer. -/
structure Canonical (s : Session) : Prop where
  distinct : ∀ r, ((s.workspace.registry r).entries.map Descriptor.key).Nodup
  faithful : ∀ r, ∀ d ∈ (s.workspace.registry r).entries, d.Faithful
  stored : ∀ r key d, (s.workspace.registry r).find? key = some d → d.key = key
  lasting : ∀ s', s.Steps s' → ∀ r,
    (s.workspace.registry r).entries <+: (s'.workspace.registry r).entries
  held : ∀ r d, s.Gave r d → (s.workspace.registry r).find? d.key = some d
  same : ∀ r d d', s.Gave r d → s.Gave r d' → (d.identity = d'.identity ↔ d.key = d'.key)
  identity : ∀ d d', s.Knows d → s.Knows d' → d.isDefined = false → d'.isDefined = false →
    d.identity = d'.identity → d = d'
  answer : ∀ r d, s.Gave r d → (s.workspace.registry r).rewrap d = (d, s.workspace.registry r)
  idempotent : ∀ r d, ((s.workspace.registry r).rewrap d).2.rewrap
    ((s.workspace.registry r).rewrap d).1 = (s.workspace.registry r).rewrap d
  defined : ∀ r d, d.isDefined = true →
    (s.workspace.registry r).rewrap d = (d, s.workspace.registry r)

theorem Sound.identity_inj (hs : s.Sound) (hd : s.Knows d) (hd' : s.Knows d')
    (hn : d.isDefined = false) (hn' : d'.isDefined = false) (h : d.identity = d'.identity) :
    d = d' := by
  obtain ⟨hissuer, hkey⟩ := Identity.mk.inj h
  have hmade := hs.genuine d hd hn
  have hmade' := hs.genuine d' hd' hn'
  unfold Workspace.Genuine at hmade hmade'
  rw [← hissuer] at hmade'
  exact (hmade.eq_iff hmade').mpr hkey

theorem reachable_canonical (h : s.Reachable) : s.Canonical := by
  have hs : s.Sound := Steps.sound h start_sound
  constructor
  · exact fun r => (hs.workspace.canonical r).distinct
  · exact fun r d hd => ((hs.workspace.canonical r).storable d hd).faithful
  · exact fun r key d hd => Registry.key_of_find? hd
  · exact fun s' hsteps => hsteps.extends hs
  · exact hs.held
  · intro r d d' hd hd'
    constructor
    · exact fun he => (Identity.mk.inj he).2
    · intro hk
      obtain rfl := ((hs.held r d hd).eq_iff (hs.held r d' hd')).mpr hk
      rfl
  · exact fun d d' hd hd' hn hn' => hs.identity_inj hd hd' hn hn'
  · exact fun r d hd => (hs.held r d hd).rewrap
  · exact fun r d => Registry.rewrap_rewrap _ d
  · exact fun r d hd => Registry.rewrap_of_isDefined hd

def AllowsAll : Session → List Call → Prop
  | _, [] => True
  | s, c :: calls => s.Allows c ∧ (s.after c).AllowsAll calls

instance decidableAllowsAll : (s : Session) → (calls : List Call) → Decidable (s.AllowsAll calls)
  | _, [] => isTrue trivial
  | s, c :: calls =>
    have := decidableAllowsAll (s.after c) calls
    inferInstanceAs (Decidable (s.Allows c ∧ (s.after c).AllowsAll calls))

theorem AllowsAll.steps {calls : List Call} (h : s.AllowsAll calls) :
    s.Steps (calls.foldl after s) := by
  induction calls generalizing s with
  | nil => exact .refl
  | cons c calls ih => exact .head (.call h.1) (ih h.2)

def sampleBase : ExternalType := ⟨"a.Base", .classType, none, []⟩

def sampleFace : ExternalType := ⟨"a.Face", .interfaceType, none, []⟩

def sampleDerived : ExternalType := ⟨"a.Derived", .classType, some sampleBase, [sampleFace]⟩

/-- The second registry takes over the descriptor of the first one and is asked for its superclass,
of which the first registry then makes a descriptor of its own. -/
def sampleCalls : List Call :=
  [.wrap 0 .anyType sampleDerived, .newRegistry, .rewrap 1 ⟨0, .external sampleDerived⟩,
   .superclassOf 1 ⟨0, .external sampleDerived⟩, .wrap 0 .plainClass sampleFace,
   .wrap 0 .plainClass sampleBase, .rewrap 0 ⟨1, .external sampleBase⟩,
   .interfacesOf 1 ⟨0, .external sampleDerived⟩, .wrap 1 .anyType ⟨"int", .primitiveType, none, []⟩]

def sample : Session := sampleCalls.foldl after start

theorem sample_canonical : sample.Reachable ∧ sample.Canonical ∧
    (sample.workspace.registry 1).entries = [⟨0, .external sampleDerived⟩,
      ⟨1, .external sampleBase⟩, ⟨1, .external sampleFace⟩, ⟨1, .primitive .int⟩] := by
  have hallowed : start.AllowsAll sampleCalls := by decide +kernel
  exact ⟨hallowed.steps, reachable_canonical hallowed.steps, by decide +kernel⟩

end Session

end DeclForest
