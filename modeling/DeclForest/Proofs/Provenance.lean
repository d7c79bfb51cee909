import DeclForest.Proofs.Acceptance

/-!
Where the descriptors of a session come from. Registries hold descriptors of references that were
wrapped and of what these record as superclasses and interfaces, and of nothing else; an answer that
is kept for a superclass is what the reference of some such descriptor records. Neither depends on
which registry was asked, nor in which order, nor on calls that were refused.
-/

namespace DeclForest

namespace ExternalType

def recorded (t : ExternalType) : List ExternalType := t.superclass.toList ++ t.interfaces

/-- A descriptor, or none, is what the reference records as its superclass; only plain classes that
are not named like a primitive can be. -/
def HasSuperclass (t : ExternalType) : Option Descriptor → Prop
  | none => t.superclass = none
  | some s => ∃ u, t.superclass = some u ∧ Position.plainClass.check u = .ok () ∧
      u.key? = some s.key

end ExternalType

namespace Registry

variable {T : ExternalType → Prop} {r r' : Registry} {d : Descriptor} {position : Position}
  {t : ExternalType}

def Within (T : ExternalType → Prop) (r : Registry) : Prop :=
  ∀ d ∈ r.entries, ∀ t, d.external? = some t → T t

theorem Within.mono {T' : ExternalType → Prop} (h : r.Within T) (hT : ∀ t, T t → T' t) :
    r.Within T' :=
  fun d hd t ht => hT t (h d hd t ht)

theorem Within.adopt (h : r.Within T) (hd : ∀ t, d.external? = some t → T t) :
    (r.adopt d).2.Within T := by
  intro known hknown
  rcases mem_of_mem_adopt hknown with hold | rfl
  · exact h known hold
  · exact hd

theorem Within.primitive (h : r.Within T) (p : Primitive) : (r.primitive p).2.Within T :=
  h.adopt (by simp [Descriptor.external?])

theorem Within.rewrap (h : r.Within T) (hd : ∀ t, d.external? = some t → T t) :
    (r.rewrap d).2.Within T := by
  unfold Registry.rewrap
  cases d.referent with
  | primitive p => exact h.primitive p
  | external _ => exact h.adopt hd
  | defined id name kind => exact h

theorem external?_of_referent {x : Referent} (hx : t.referent = .ok x) {issuer : Nat}
    {u : ExternalType} (hu : (Descriptor.mk issuer x).external? = some u) : u = t := by
  by_cases hk : t.kind = .primitiveType
  · unfold ExternalType.referent at hx
    rw [hk] at hx
    cases hp : Primitive.ofKeyword? t.qualifiedName <;> simp only [hp] at hx
    · simp at hx
    · obtain rfl := Except.ok.inj hx
      simp [Descriptor.external?] at hu
  · obtain rfl := Except.ok.inj ((referent_of_ne hk).symm.trans hx)
    exact (Option.some.inj hu).symm

theorem Within.wrap (h : r.Within T) (hr : r.Canonical) (ht : T t)
    (hw : r.wrap position t = .ok (d, r')) : r'.Within T := by
  obtain ⟨-, x, hx, hi⟩ := hr.wrap_eq_ok hw
  have hnext : (r.intern x).2.Within T :=
    h.adopt fun u hu => external?_of_referent hx hu ▸ ht
  rwa [hi] at hnext

theorem Within.collect {α β : Type} {type : α → ExternalType}
    {use : α → Descriptor → Except Fault β} {items : List α} (h : r.Within T) (hr : r.Canonical)
    (hitems : ∀ a ∈ items, T (type a)) : (r.collect position type use items).2.Within T := by
  induction items generalizing r with
  | nil => exact h
  | cons a rest ih =>
    simp only [Registry.collect]
    split
    · exact h
    · rename_i d r' hw
      have hnext := h.wrap hr (hitems a List.mem_cons_self) hw
      split
      · exact hnext
      · exact ih hnext (hr.wrap hw) fun b hb => hitems b (List.mem_cons_of_mem a hb)

theorem Within.wrapEach {types : List ExternalType} (h : r.Within T) (hr : r.Canonical)
    (htypes : ∀ t ∈ types, T t) : (r.wrapEach position types).2.Within T :=
  h.collect hr htypes

end Registry

namespace Forest

variable {T : ExternalType → Prop} {r : Registry} {f : Forest} {u : UnitId}

theorem importTypes_within {types : List ExternalType} (h : r.Within T) (hr : r.Canonical)
    (ht : ∀ t ∈ types, T t) : (f.importTypes r u types).2.2.Within T := by
  unfold importTypes
  cases f.unit u with
  | error fault => exact h
  | ok unit =>
    rw [importCollected_registry]
    exact h.collect hr ht

theorem importStatic_within {members : List ExternalMember} (h : r.Within T) (hr : r.Canonical)
    (ht : ∀ m ∈ members, T m.declaringType) : (f.importStatic r u members).2.2.Within T := by
  unfold importStatic
  cases f.unit u with
  | error fault => exact h
  | ok unit =>
    cases members.find? fun m => !m.isStatic with
    | some m => exact h
    | none =>
      rw [importCollected_registry]
      exact h.collect hr ht

end Forest

/-- What is computed for a superclass is what the reference records, and is held from then on. -/
theorem Registry.superclass_of_computed {r r' : Registry} {t : ExternalType}
    {answer : Option Descriptor} (hr : r.Canonical)
    (h : t.superclass = none ∧ answer = none ∧ r' = r ∨
      ∃ super s, t.superclass = some super ∧ answer = some s ∧
        r.wrap .plainClass super = .ok (s, r')) :
    t.HasSuperclass answer ∧ ∀ s, answer = some s → r'.Holds s := by
  rcases h with ⟨hnone, rfl, -⟩ | ⟨super, s, hsuper, rfl, hwrap⟩
  · exact ⟨hnone, by simp⟩
  · refine ⟨⟨super, hsuper, (hr.wrap_eq_ok hwrap).1, hr.key_of_wrap hwrap⟩, fun x hx => ?_⟩
    obtain rfl := Option.some.inj hx
    exact hr.wrap_holds hwrap

def SuperclassMemo.Within (T : ExternalType → Prop) (memo : SuperclassMemo) : Prop :=
  ∀ a ∈ memo.answers, ∃ t, T t ∧ a.1.key = .external t.qualifiedName t.kind ∧ t.HasSuperclass a.2

theorem SuperclassMemo.Within.mono {T T' : ExternalType → Prop} {memo : SuperclassMemo}
    (h : memo.Within T) (hT : ∀ t, T t → T' t) : memo.Within T' := by
  intro a ha
  obtain ⟨t, ht, hkey⟩ := h a ha
  exact ⟨t, hT t ht, hkey⟩

theorem Descriptor.key_of_external? {d : Descriptor} {t : ExternalType}
    (h : d.external? = some t) : d.key = .external t.qualifiedName t.kind := by
  unfold external? at h
  unfold key
  cases hx : d.referent <;> simp_all [Referent.key]

theorem SuperclassMemo.Within.record {T : ExternalType → Prop} {memo : SuperclassMemo}
    {d : Descriptor} {t : ExternalType} {answer : Option Descriptor} (h : memo.Within T)
    (ht : T t) (hd : d.external? = some t) (ha : t.HasSuperclass answer) :
    (memo.record d answer).Within T := by
  intro a hm
  rcases List.mem_append.mp hm with hm | hm
  · exact h a hm
  · obtain rfl := List.mem_singleton.mp hm
    exact ⟨t, ht, d.key_of_external? hd, ha⟩

/-- The references that an event is about; of a single one that was refused nothing is left. -/
def Event.wrapped : Event → List ExternalType
  | ⟨.wrap _ _ t, .ok _⟩ => [t]
  | ⟨.wrapAll _ c, _⟩ => c.types
  | ⟨.importTypes _ _ _ types, _⟩ => types
  | ⟨.importStatic _ _ _ members, _⟩ => members.map ExternalMember.declaringType
  | _ => []

namespace Call

variable {T : ExternalType → Prop} {w : Workspace} {c : Call} {r : Nat} {d : Descriptor}
  {t : ExternalType}

theorem external?_of_externalClass? (h : d.externalClass? = some t) : d.external? = some t :=
  (Option.filter_eq_some_iff.mp h).1

/-- Only the question for a superclass is kept. -/
theorem superclasses_perform (h : ∀ r d, c ≠ .superclassOf r d) :
    (c.perform w).2.superclasses = w.superclasses := by
  cases c with
  | superclassOf r d => exact absurd rfl (h r d)
  | wrap r position t =>
    rw [perform_wrap]
    rfl
  | interfacesOf r d =>
    rw [perform_interfacesOf]
    rfl
  | wrapAll r catalog =>
    rw [perform_wrapAll]
    rfl
  | importTypes forest r u types =>
    rw [perform_importTypes]
    rfl
  | importStatic forest r u members =>
    rw [perform_importStatic]
    rfl
  | edit forest e =>
    rw [perform_edit]
    rfl
  | newRegistry | newForest | fork _ | primitive _ _ | rewrap _ _ => rfl

section Step

variable (hcan : ∀ n, (w.registry n).Canonical)
  (hargument : ∀ d ∈ c.argument?, ∀ t, d.external? = some t → T t ∧ ∀ u ∈ t.recorded, T u)

include hcan hargument

/-- One more call keeps the registry that it is about within a class that has what was wrapped. -/
theorem within_perform (hr : c.registry? = some r) (hn : r < w.registries.size)
    (h : (w.registry r).Within T) (hwrapped : ∀ t ∈ (Event.mk c (c.perform w).1).wrapped, T t) :
    ((c.perform w).2.registry r).Within T := by
  cases c with
  | newRegistry | newForest | fork _ | edit _ _ => simp [Call.registry?] at hr
  | primitive r' p =>
    obtain rfl := Option.some.inj hr
    rw [perform_primitive, Workspace.registry_setRegistry hn, if_pos rfl]
    exact h.primitive p
  | wrap r' position t =>
    obtain rfl := Option.some.inj hr
    rcases hw : (w.registry r').wrap position t with fault | ⟨d, next⟩
    · rwa [perform_wrap_of_error hw]
    · rw [perform_wrap_of_ok hw] at hwrapped ⊢
      rw [Workspace.registry_setRegistry hn, if_pos rfl]
      exact h.wrap (hcan r') (hwrapped t (List.mem_singleton_self t)) hw
  | rewrap r' d =>
    obtain rfl := Option.some.inj hr
    rw [perform_rewrap, Workspace.registry_setRegistry hn, if_pos rfl]
    exact h.rewrap fun t hx => (hargument d rfl t hx).1
  | superclassOf r' d =>
    obtain rfl := Option.some.inj hr
    rw [perform_superclassOf]
    rcases hs : (w.registry r').superclassOf w.superclasses d with fault | ⟨answer, next, memo⟩
    · exact h
    · have hnext : next.Within T := by
        rcases Registry.superclassOf_eq_ok hs with ⟨rfl, -⟩ | ⟨-, -, t, hx, hnew⟩
        · exact h
        · rcases hnew with ⟨-, -, rfl⟩ | ⟨super, s, hsuper, -, hwrap⟩
          · exact h
          · have hT := (hargument d rfl t (external?_of_externalClass? hx)).2 super
            exact h.wrap (hcan r') (hT (by simp [ExternalType.recorded, hsuper])) hwrap
      show ((w.setRegistry r' next).registry r').Within T
      rwa [Workspace.registry_setRegistry hn, if_pos rfl]
  | interfacesOf r' d =>
    obtain rfl := Option.some.inj hr
    rw [perform_interfacesOf, Workspace.registry_setRegistry hn, if_pos rfl]
    apply h.wrapEach (hcan r')
    intro u hu
    cases hx : d.external? with
    | none => simp [hx] at hu
    | some t =>
      rw [hx] at hu
      exact (hargument d rfl t hx).2 u (List.mem_append_right _ hu)
  | wrapAll r' catalog =>
    obtain rfl := Option.some.inj hr
    rw [perform_wrapAll, Workspace.registry_setRegistry hn, if_pos rfl]
    exact h.wrapEach (hcan r') hwrapped
  | importTypes forest r' u types =>
    obtain rfl := Option.some.inj hr
    have hforest : ∀ f, r' < (w.setForest forest f).registries.size := fun _ => hn
    rw [perform_importTypes]
    simp only [Workspace.registry_setRegistry (hforest _), if_pos]
    exact Forest.importTypes_within h (hcan r') hwrapped
  | importStatic forest r' u members =>
    obtain rfl := Option.some.inj hr
    have hforest : ∀ f, r' < (w.setForest forest f).registries.size := fun _ => hn
    rw [perform_importStatic]
    simp only [Workspace.registry_setRegistry (hforest _), if_pos]
    exact Forest.importStatic_within h (hcan r') fun m hm => hwrapped _ (List.mem_map_of_mem hm)

/-- What a call adds to the kept answers is what it computed. -/
theorem memo_within_perform (h : w.superclasses.Within T) :
    (c.perform w).2.superclasses.Within T := by
  by_cases hask : ∃ r d, c = .superclassOf r d
  · obtain ⟨r, d, rfl⟩ := hask
    rw [perform_superclassOf]
    rcases hs : (w.registry r).superclassOf w.superclasses d with fault | ⟨answer, next, memo⟩
    · exact h
    · show memo.Within T
      rcases Registry.superclassOf_eq_ok hs with ⟨-, rfl, -⟩ | ⟨-, rfl, t, hx, hnew⟩
      · exact h
      · have hext := external?_of_externalClass? hx
        have hright := (Registry.superclass_of_computed (hcan r) hnew).1
        exact h.record (hargument d rfl t hext).1 hext hright
  · rw [superclasses_perform fun r d he => hask ⟨r, d, he⟩]
    exact h

end Step

end Call

namespace Session

variable {s s' : Session} {c : Call} {d : Descriptor} {t u : ExternalType}

def Wrapped (s : Session) (t : ExternalType) : Prop := ∃ e ∈ s.history, t ∈ e.wrapped

def Mentions (s : Session) (t : ExternalType) : Prop :=
  ∃ u, s.Wrapped u ∧ Relation.ReflTransGen (fun a b => b ∈ a.recorded) u t

/-- Among all that was wrapped, and all that is nested in it, a name and a kind mean one type. -/
def Consistent (s : Session) : Prop :=
  ∀ a b, s.Mentions a → s.Mentions b → a.qualifiedName = b.qualifiedName → a.kind = b.kind → a = b

theorem Mentions.recorded (h : s.Mentions t) (hu : u ∈ t.recorded) : s.Mentions u := by
  obtain ⟨first, hfirst, hpath⟩ := h
  exact ⟨first, hfirst, hpath.tail hu⟩

theorem Mentions.superclass (h : s.Mentions t) (hu : t.superclass = some u) : s.Mentions u :=
  h.recorded (by simp [ExternalType.recorded, hu])

theorem mentions_of_event (h : t ∈ (Event.mk c (c.perform s.workspace).1).wrapped) :
    (s.after c).Mentions t :=
  ⟨t, ⟨_, List.mem_append_right _ (List.mem_singleton_self _), h⟩, .refl⟩

theorem Mentions.after (h : s.Mentions t) (c : Call) : (s.after c).Mentions t := by
  obtain ⟨first, ⟨e, he, hm⟩, hpath⟩ := h
  exact ⟨first, ⟨e, List.mem_append_left _ he, hm⟩, hpath⟩

theorem Mentions.steps (h : s.Mentions t) (hs : s.Steps s') : s'.Mentions t := by
  induction hs with
  | refl => exact h
  | tail _ hstep ih =>
    obtain ⟨hc⟩ := hstep
    exact ih.after _

theorem Consistent.of_steps (h : s'.Consistent) (hs : s.Steps s') : s.Consistent :=
  fun a b ha hb => h a b (ha.steps hs) (hb.steps hs)

structure Traced (s : Session) : Prop where
  registries : ∀ n, (s.workspace.registry n).Within s.Mentions
  memo : s.workspace.superclasses.Within s.Mentions

theorem start_traced : start.Traced where
  registries n d hd := by
    cases n <;> simp [start, Workspace.initial, Workspace.registry, Registry.empty] at hd
  memo a ha := by simp [start, Workspace.initial, SuperclassMemo.empty] at ha

/-- A descriptor that is known came from a registry, and so from what was wrapped. -/
theorem Traced.mentions (ht : s.Traced) (hs : s.Sound) (hd : s.Knows d)
    (hx : d.external? = some t) : s.Mentions t := by
  have hmade := hs.genuine d hd (d.isDefined_of_external? hx)
  exact ht.registries _ d (Registry.mem_of_find? hmade) t hx

/-- By the two step lemmas, for a call adds nothing that is not mentioned after it. -/
theorem Traced.after (ht : s.Traced) (hs : s.Sound) (hc : s.Allows c) : (s.after c).Traced := by
  have hargument : ∀ d ∈ c.argument?, ∀ t, d.external? = some t →
      (s.after c).Mentions t ∧ ∀ u ∈ t.recorded, (s.after c).Mentions u := by
    intro d hd t hx
    have hmention := (ht.mentions hs (hc.argument d hd (by simp [hx])) hx).after c
    exact ⟨hmention, fun u hu => hmention.recorded hu⟩
  have hcan := fun n => hs.workspace.canonical n
  constructor
  · intro n
    have hold := (ht.registries n).mono fun t h => h.after c
    by_cases hn : c.registry? = some n
    · exact Call.within_perform hcan hargument hn (hc.registry n hn) hold fun t h =>
        mentions_of_event h
    · show ((c.perform s.workspace).2.registry n).Within _
      rwa [Call.registry_perform hn]
  · exact Call.memo_within_perform hcan hargument (ht.memo.mono fun t h => h.after c)

theorem Reachable.traced (h : s.Reachable) : s.Traced := by
  induction h with
  | refl => exact start_traced
  | tail hsteps hstep ih =>
    obtain ⟨hc⟩ := hstep
    exact ih.after (Steps.sound hsteps start_sound) hc

end Session

end DeclForest
