import DeclForest.Proofs.Canonical
import DeclForest.Workspace

/-!
Descriptors in circulation between the registries of a workspace. A descriptor may be kept by any
registry and be the superclass of any other, but the registry that made it holds it in any case: an
issuer and a key never mean two descriptors. That is what a workspace is `Sound` for, and what stays
so when one of its registries takes in a descriptor that is genuine.
-/

namespace DeclForest

namespace Forest

variable {given : Descriptor → Prop} {r : Registry} (f : Forest)

theorem importCollected_registry (u : UnitId) (collected : Except Fault (List Content) × Registry) :
    (f.importCollected u collected).2.2 = collected.2 := by
  rcases collected with ⟨result, r⟩
  cases result <;> rfl

theorem importTypes_grows (hr : r.Canonical) (u : UnitId) (types : List ExternalType) :
    Registry.Grows given r (f.importTypes r u types).2.2 := by
  unfold importTypes
  cases f.unit u with
  | error fault => exact .refl
  | ok unit =>
    rw [importCollected_registry]
    exact hr.collect_grows types

theorem importStatic_grows (hr : r.Canonical) (u : UnitId) (members : List ExternalMember) :
    Registry.Grows given r (f.importStatic r u members).2.2 := by
  unfold importStatic
  cases f.unit u with
  | error fault => exact .refl
  | ok unit =>
    cases members.find? fun m => !m.isStatic with
    | some m => exact .refl
    | none =>
      rw [importCollected_registry]
      exact hr.collect_grows members

end Forest

namespace Workspace

variable {w w' : Workspace} {n : Nat} {r : Registry} {d : Descriptor}

def Extends (w w' : Workspace) : Prop := ∀ n, (w.registry n).entries <+: (w'.registry n).entries

def Genuine (w : Workspace) (d : Descriptor) : Prop := (w.registry d.issuer).Holds d

structure Sound (w : Workspace) : Prop where
  numbered : ∀ n, (w.registry n).number = n
  canonical : ∀ n, (w.registry n).Canonical
  genuine : ∀ n, ∀ d ∈ (w.registry n).entries, w.Genuine d
  answered : ∀ a ∈ w.superclasses.answers, ∀ d, a.2 = some d → w.Genuine d

theorem Extends.refl (w : Workspace) : w.Extends w := fun _ => List.prefix_refl _

theorem Extends.trans {w'' : Workspace} (h : w.Extends w') (h' : w'.Extends w'') : w.Extends w'' :=
  fun n => (h n).trans (h' n)

theorem Genuine.extends (hd : w.Genuine d) (h : w.Extends w') : w'.Genuine d :=
  Registry.Holds.of_isPrefix hd (h d.issuer)

theorem Sound.storable (hw : w.Sound) (hd : w.Genuine d) : d.referent.Storable :=
  (hw.canonical d.issuer).storable d (Registry.mem_of_find? hd)

theorem registry_setRegistry (hn : n < w.registries.size) (m : Nat) :
    (w.setRegistry n r).registry m = if m = n then r else w.registry m := by
  unfold registry setRegistry
  by_cases hm : m = n
  · simp [hm, hn]
  · simp [hm, Array.getElem?_setIfInBounds_ne (Ne.symm hm)]

theorem setRegistry_setRegistry (w : Workspace) (n : Nat) (r r' : Registry) :
    (w.setRegistry n r).setRegistry n r' = w.setRegistry n r' := by
  simp [setRegistry]

theorem size_setRegistry (w : Workspace) (n : Nat) (r : Registry) :
    (w.setRegistry n r).registries.size = w.registries.size := by
  simp [setRegistry]

/-- A registry that is new is as empty as one that was never made. -/
theorem registry_push (w : Workspace) (n : Nat) :
    { w with registries := w.registries.push (.empty w.registries.size) }.registry n =
      w.registry n := by
  unfold registry
  rw [Array.getElem?_push]
  split
  · rename_i hn
    simp [hn]
  · rfl

/-- Soundness is about the registries and the superclasses that were found. -/
theorem Sound.congr (hw : w.Sound) (hr : ∀ n, w'.registry n = w.registry n)
    (hs : w'.superclasses = w.superclasses) : w'.Sound where
  numbered n := by rw [hr, hw.numbered]
  canonical n := by
    rw [hr]
    exact hw.canonical n
  genuine n d hd := by
    unfold Genuine
    rw [hr] at hd ⊢
    exact hw.genuine n d hd
  answered a ha d hd := by
    unfold Genuine
    rw [hr]
    exact hw.answered a (hs ▸ ha) d hd

theorem initial_sound : Sound initial := by
  have hempty : ∀ n, initial.registry n = .empty n := by
    intro n
    cases n <;> rfl
  constructor
  · intro n
    rw [hempty]
    rfl
  · intro n
    rw [hempty]
    exact Registry.empty_canonical n
  · intro n d hd
    rw [hempty] at hd
    simp [Registry.empty] at hd
  · intro a ha
    simp [initial, SuperclassMemo.empty] at ha

theorem extends_setRegistry (hn : n < w.registries.size)
    (h : (w.registry n).entries <+: r.entries) : w.Extends (w.setRegistry n r) := by
  intro m
  rw [registry_setRegistry hn]
  split
  · rename_i hm
    exact hm ▸ h
  · exact List.prefix_refl _

theorem Sound.takes (hw : w.Sound) (hn : n < w.registries.size)
    (h : Registry.Takes w.Genuine (w.registry n) r) : (w.setRegistry n r).Sound := by
  have hext : w.Extends (w.setRegistry n r) := extends_setRegistry hn h.entries_isPrefix
  have hr : r.Canonical := h.canonical (fun d hd => hw.storable hd) (hw.canonical n)
  constructor
  · intro m
    rw [registry_setRegistry hn]
    split
    · rename_i hm
      rw [hm, h.number_eq, hw.numbered]
    · exact hw.numbered m
  · intro m
    rw [registry_setRegistry hn]
    split
    · exact hr
    · exact hw.canonical m
  · intro m d hd
    rw [registry_setRegistry hn] at hd
    split at hd
    · rcases h.mem hd with hold | hown | hgiven
      · exact (hw.genuine n d hold).extends hext
      · rw [hw.numbered] at hown
        unfold Genuine
        rw [registry_setRegistry hn, if_pos hown]
        exact hr.holds_of_mem hd
      · exact hgiven.extends hext
    · exact (hw.genuine m d hd).extends hext
  · intro a ha d hd
    exact (hw.answered a ha d hd).extends hext

theorem extends_of_grows {given : Descriptor → Prop} (hn : n < w.registries.size)
    (h : Registry.Grows given (w.registry n) r) : w.Extends (w.setRegistry n r) :=
  extends_setRegistry hn (Registry.Grows.entries_isPrefix h)

theorem Sound.grows (hw : w.Sound) (hn : n < w.registries.size)
    (h : Registry.Grows w.Genuine (w.registry n) r) : (w.setRegistry n r).Sound := by
  induction h with
  | refl =>
    refine hw.congr (fun m => ?_) rfl
    rw [registry_setRegistry hn]
    split
    · rename_i hm
      rw [hm]
    · rfl
  | @tail r r' hg ht ih =>
    have hext : w.Extends (w.setRegistry n r) := extends_of_grows hn hg
    have hn' : n < (w.setRegistry n r).registries.size := by rwa [size_setRegistry]
    have hr : (w.setRegistry n r).registry n = r := by rw [registry_setRegistry hn, if_pos rfl]
    rw [← setRegistry_setRegistry w n r r']
    apply ih.takes hn'
    rw [hr]
    exact ht.mono fun d hd => hd.extends hext

/-- What a call leads to, from one workspace to the next: nothing is lost, what was answered is in
circulation from then on, and a registry that answered descriptors as its own holds them. -/
structure Steps (w w' : Workspace) (origin : Option Nat)
    (answer : Except Fault (List Descriptor)) : Prop where
  sound : w'.Sound
  extend : w.Extends w'
  genuine : ∀ ds, answer = .ok ds → ∀ d ∈ ds, d.isDefined = false → w'.Genuine d
  held : ∀ r, origin = some r → ∀ ds, answer = .ok ds → ∀ d ∈ ds, d.isDefined = false →
    (w'.registry r).Holds d

theorem Sound.genuine_of_holds (hw : w.Sound) (hd : (w.registry n).Holds d) : w.Genuine d :=
  hw.genuine n d (Registry.mem_of_find? hd)

/-- A call that is of no concern to registries. -/
theorem Sound.steps_of_same (hw : w.Sound) (hr : ∀ n, w'.registry n = w.registry n)
    (hs : w'.superclasses = w.superclasses) {answer : Except Fault (List Descriptor)}
    (ha : ∀ ds, answer = .ok ds → ds = []) : w.Steps w' none answer where
  sound := hw.congr hr hs
  extend n := hr n ▸ List.prefix_refl _
  genuine ds hds d hd := by simp [ha ds hds] at hd
  held r hr := by simp at hr

theorem Steps.withForests {origin : Option Nat} {answer : Except Fault (List Descriptor)}
    (h : w.Steps w' origin answer) (forests : Array Forest) :
    w.Steps { w' with forests := forests } origin answer where
  sound := h.sound.congr (fun _ => rfl) rfl
  extend := h.extend
  genuine := h.genuine
  held := h.held

theorem Sound.steps_of_forests (hw : w.Sound) {forests : Array Forest}
    {answer : Except Fault (List Descriptor)} (ha : ∀ ds, answer = .ok ds → ds = []) :
    w.Steps { w with forests := forests } none answer :=
  (hw.steps_of_same (fun _ => rfl) rfl ha).withForests forests

theorem Sound.steps_of_answered (hw : w.Sound) (hn : n < w.registries.size)
    {result : Except Fault (List Descriptor) × Registry}
    (h : Registry.Answered w.Genuine (w.registry n) result) :
    w.Steps (w.setRegistry n result.2) (some n) result.1 := by
  have hsound : (w.setRegistry n result.2).Sound := hw.grows hn h.grows
  have hheld : ∀ ds, result.1 = .ok ds → ∀ d ∈ ds, d.isDefined = false →
      ((w.setRegistry n result.2).registry n).Holds d := by
    intro ds hds d hd hdef
    rw [registry_setRegistry hn, if_pos rfl]
    exact h.holds ds hds d hd hdef
  constructor
  · exact hsound
  · exact extends_of_grows hn h.grows
  · exact fun ds hds d hd hdef => hsound.genuine_of_holds (hheld ds hds d hd hdef)
  · intro r hr
    obtain rfl := Option.some.inj hr
    exact hheld

theorem eq_nil_of_map {α : Type} {x : Except Fault α} {ds : List Descriptor}
    (h : (x.map fun _ => []) = .ok ds) : ds = [] := by
  obtain ⟨_, -, rfl⟩ := map_eq_ok.mp h
  rfl

/-- A batch changes a forest as well, and answers no descriptor. -/
theorem Sound.steps_of_batch {α : Type} (hw : w.Sound) (hn : n < w.registries.size)
    {forests : Array Forest} (h : Registry.Grows w.Genuine (w.registry n) r)
    {result : Except Fault α} :
    w.Steps ({ w with forests := forests }.setRegistry n r) (some n) (result.map fun _ => []) := by
  have hanswered : Registry.Answered w.Genuine (w.registry n) (result.map fun _ => [], r) := by
    refine ⟨h, fun ds hds d hd => ?_⟩
    simp [eq_nil_of_map hds] at hd
  exact (hw.steps_of_answered hn hanswered).withForests forests

theorem Sound.withSuperclasses (hw : w.Sound) {memo : SuperclassMemo}
    (h : ∀ a ∈ memo.answers, ∀ d, a.2 = some d → w.Genuine d) :
    { w with superclasses := memo }.Sound :=
  ⟨hw.numbered, hw.canonical, hw.genuine, h⟩

/-- What a superclass is found in: the answers so far, or the registry, where it is wrapped. -/
theorem Sound.superclassOf_eq_ok (hw : w.Sound) (hn : n < w.registries.size)
    {answer : Option Descriptor} {memo : SuperclassMemo}
    (h : (w.registry n).superclassOf w.superclasses d = .ok (answer, r, memo)) :
    (w.setRegistry n r).Sound ∧ w.Extends (w.setRegistry n r) ∧
      (∀ s, answer = some s → (w.setRegistry n r).Genuine s) ∧
      (memo = w.superclasses ∨ memo = w.superclasses.record d answer) := by
  have hkeep : Registry.Grows w.Genuine (w.registry n) (w.registry n) := .refl
  rcases Registry.superclassOf_eq_ok h with ⟨rfl, rfl, hknown⟩ | ⟨-, rfl, t, -, hnew⟩
  · have hext := extends_of_grows hn hkeep
    refine ⟨hw.grows hn hkeep, hext, ?_, .inl rfl⟩
    rintro s rfl
    obtain ⟨-, hnone⟩ | hfound := hknown
    · simp at hnone
    · obtain ⟨a, ha, hs⟩ := Option.map_eq_some_iff.mp hfound
      exact (hw.answered a (List.mem_of_find?_eq_some ha) s hs).extends hext
  · rcases hnew with ⟨-, rfl, rfl⟩ | ⟨super, s, -, rfl, hwrap⟩
    · exact ⟨hw.grows hn hkeep, extends_of_grows hn hkeep, by simp, .inr rfl⟩
    · have hgrow : Registry.Grows w.Genuine (w.registry n) r :=
        .single ((hw.canonical n).wrap_takes hwrap)
      have hheld : ((w.setRegistry n r).registry n).Holds s := by
        rw [registry_setRegistry hn, if_pos rfl]
        exact (hw.canonical n).wrap_holds hwrap
      refine ⟨hw.grows hn hgrow, extends_of_grows hn hgrow, ?_, .inr rfl⟩
      intro s' hs
      exact Option.some.inj hs ▸ (hw.grows hn hgrow).genuine_of_holds hheld

theorem Sound.steps_of_superclassOf (hw : w.Sound) (hn : n < w.registries.size)
    {answer : Option Descriptor} {memo : SuperclassMemo}
    (h : (w.registry n).superclassOf w.superclasses d = .ok (answer, r, memo)) :
    w.Steps { w.setRegistry n r with superclasses := memo } none (.ok answer.toList) := by
  obtain ⟨hsound, hext, hanswer, hmemo⟩ := hw.superclassOf_eq_ok hn h
  have hknown : ∀ a ∈ w.superclasses.answers, ∀ s, a.2 = some s → (w.setRegistry n r).Genuine s :=
    fun a ha s hs => (hw.answered a ha s hs).extends hext
  refine ⟨hsound.withSuperclasses ?_, hext, ?_, by simp⟩
  · intro a ha s hs
    rcases hmemo with rfl | rfl
    · exact hknown a ha s hs
    · rcases List.mem_append.mp ha with ha | ha
      · exact hknown a ha s hs
      · obtain rfl := List.mem_singleton.mp ha
        exact hanswer s hs
  · intro ds hds s hs _
    obtain rfl := Except.ok.inj hds
    exact hanswer s (Option.mem_toList.mp hs)

end Workspace

end DeclForest
