import DeclForest.Proofs.Lineage

/-!
Which registry a superclass comes from. The answer to the question for the superclass of a descriptor
is kept for the descriptor, whichever registry is asked, so the first one that answered it has
answered for all of them. That registry goes on handing out its answer for every reference to the
type. Any other registry hands it out exactly as long as both have one descriptor for the type; where
it made one of its own, what it answers for one type are two descriptors.
-/

namespace DeclForest

theorem SuperclassMemo.find?_record (memo : SuperclassMemo) (d e : Descriptor)
    (answer : Option Descriptor) : (memo.record d answer).find? e =
      (memo.find? e).or (if d.identity = e.identity then some answer else none) := by
  unfold find? record
  rw [List.find?_append, List.find?_singleton]
  cases memo.answers.find? fun a => a.1 == e.identity with
  | some a => rfl
  | none => by_cases h : d.identity = e.identity <;> simp [h]

theorem SuperclassMemo.find?_congr (memo : SuperclassMemo) {d e : Descriptor}
    (h : d.identity = e.identity) : memo.find? d = memo.find? e := by
  unfold find?
  rw [h]

/-- Whether a descriptor is of an external class can be told from the type that it names. -/
theorem Descriptor.isSome_externalClass?_congr {d e : Descriptor} (h : d.key = e.key) :
    d.externalClass?.isSome = e.externalClass?.isSome := by
  have hkey : ∀ d : Descriptor, d.externalClass?.isSome =
      match d.key with
      | .external _ kind => !kind.isInterfaceLike
      | _ => false := by
    intro d
    unfold externalClass? external? key
    cases d.referent with
    | external t => cases hk : t.kind.isInterfaceLike <;> simp [Referent.key, hk, Option.filter]
    | _ => rfl
  rw [hkey, hkey, h]

namespace Registry

variable {r : Registry} {d : Descriptor} {t : ExternalType}

/-- A type that is known is answered whatever else the reference records. -/
theorem wrap_of_find? {position : Position} (hc : position.check t = .ok ())
    (h : r.find? (.external t.qualifiedName t.kind) = some d) :
    r.wrap position t = .ok (d, r) := by
  unfold wrap
  rw [hc, ok_bind, h]
  rfl

/-- The first reference to a type is what its descriptor is made from. -/
theorem wrap_of_unknown {position : Position} (hc : position.check t = .ok ())
    (hk : t.kind ≠ .primitiveType) (h : r.find? (.external t.qualifiedName t.kind) = none) :
    ∃ r', r.wrap position t = .ok (⟨r.number, .external t⟩, r') := by
  unfold wrap
  rw [hc, ok_bind, h, referent_of_ne hk]
  have hadopt := adopt_of_unknown (r := r) (d := ⟨r.number, .external t⟩) h
  exact ⟨_, congrArg Except.ok hadopt⟩

end Registry

def Event.answerer? (d : Descriptor) : Event → Option Nat
  | ⟨.superclassOf r e, .ok _⟩ => if e.identity = d.identity then some r else none
  | _ => none

namespace Session

variable {s s' : Session} {c : Call} {d x : Descriptor} {r q : Nat} {t : ExternalType}

/-- The first registry that answered the question for the superclass of a descriptor. A registry
that refused to answer does not count. -/
def firstAsked? (s : Session) (d : Descriptor) : Option Nat :=
  s.history.findSome? (Event.answerer? d)

/-- The registry answers the descriptor for every reference to its type. -/
def HandsOut (s : Session) (r : Nat) (d : Descriptor) : Prop :=
  ∀ t : ExternalType, d.key = .external t.qualifiedName t.kind →
    ((Call.wrap r .anyType t).perform s.workspace).1 = .ok [d]

theorem firstAsked?_after (s : Session) (c : Call) (d : Descriptor) :
    (s.after c).firstAsked? d =
      (s.firstAsked? d).or (Event.answerer? d ⟨c, (c.perform s.workspace).1⟩) := by
  unfold firstAsked? after
  rw [List.findSome?_append, List.findSome?_singleton]

theorem firstAsked?_congr (s : Session) {d e : Descriptor} (h : d.identity = e.identity) :
    s.firstAsked? d = s.firstAsked? e := by
  have hevent : Event.answerer? d = Event.answerer? e := by
    funext event
    rcases event with ⟨c, fault | ds⟩ <;> cases c <;> simp [Event.answerer?, h]
  unfold firstAsked?
  rw [hevent]

/-- To hand out a descriptor is to hold it, if it is one that a registry made. -/
theorem Sound.handsOut_iff (hs : s.Sound) (hx : s.workspace.Genuine x)
    (hkey : x.key = .external t.qualifiedName t.kind) :
    s.HandsOut r x ↔ (s.workspace.registry r).Holds x := by
  have hstorable := hs.workspace.storable hx
  have hcheck : ∀ u : ExternalType, x.key = .external u.qualifiedName u.kind →
      Position.anyType.check u = .ok () ∧ u.kind ≠ .primitiveType := by
    intro u hu
    obtain ⟨v, hv, hname, hkind⟩ := Descriptor.key_eq_external_iff.mp hu
    rw [hv] at hstorable
    obtain ⟨hk, hp⟩ := hstorable
    rw [hname] at hp
    rw [hkind] at hk
    exact ⟨Registry.check_eq_ok_iff.mpr ⟨rfl, .inr hp⟩, hk⟩
  constructor
  · intro h
    obtain ⟨hc, hk⟩ := hcheck t hkey
    cases hfind : (s.workspace.registry r).find? x.key with
    | some known =>
      rw [hkey] at hfind
      have hanswer := h t hkey
      rw [Call.perform_wrap_of_ok (Registry.wrap_of_find? hc hfind)] at hanswer
      obtain rfl := List.singleton_inj.mp (Except.ok.inj hanswer)
      rw [← hkey] at hfind
      exact hfind
    | none =>
      -- a new descriptor would be the one that this registry made, and so would be held already
      rw [hkey] at hfind
      obtain ⟨r', hw⟩ := Registry.wrap_of_unknown hc hk hfind
      have hanswer := h t hkey
      rw [Call.perform_wrap_of_ok hw] at hanswer
      obtain rfl := List.singleton_inj.mp (Except.ok.inj hanswer)
      have hissuer := hs.workspace.numbered r
      rw [hissuer] at hx ⊢
      exact hx
  · intro h u hu
    have hfind : (s.workspace.registry r).find? (.external u.qualifiedName u.kind) = some x := hu ▸ h
    rw [Call.perform_wrap_of_ok (Registry.wrap_of_find? (hcheck u hu).1 hfind)]

structure Remembers (s : Session) : Prop where
  kept : ∀ d answer, s.workspace.superclasses.find? d = some answer →
    ∃ known t q, s.Knows known ∧ known.identity = d.identity ∧ known.external? = some t ∧
      t.HasSuperclass answer ∧ s.firstAsked? d = some q ∧
      ∀ x, answer = some x → (s.workspace.registry q).Holds x
  unasked : ∀ d, d.externalClass?.isSome = true → s.workspace.superclasses.find? d = none →
    s.firstAsked? d = none

theorem start_remembers : start.Remembers where
  kept d answer h := by
    simp [start, Workspace.initial, SuperclassMemo.empty, SuperclassMemo.find?] at h
  unasked d _ _ := rfl

theorem Knows.after (h : s.Knows d) (c : Call) : (s.after c).Knows d := by
  obtain ⟨e, he, hd⟩ := h
  exact ⟨e, List.mem_append_left _ he, hd⟩

section Step

variable (hs : s.Sound) (hc : s.Allows c) (h : s.Remembers)

include hs hc h

/-- What was kept stays, and a later answer is not the first one. -/
theorem Remembers.kept_after {answer : Option Descriptor}
    (hd : s.workspace.superclasses.find? d = some answer) :
    ∃ known t q, (s.after c).Knows known ∧ known.identity = d.identity ∧
      known.external? = some t ∧ t.HasSuperclass answer ∧ (s.after c).firstAsked? d = some q ∧
      ∀ x, answer = some x → ((s.after c).workspace.registry q).Holds x := by
  obtain ⟨known, t, q, hknown, hidentity, ht, hright, hfirst, hheld⟩ := h.kept d answer hd
  have hext : s.workspace.Extends (s.after c).workspace := (hs.steps hc).extend
  refine ⟨known, t, q, hknown.after c, hidentity, ht, hright, ?_, fun x hx => ?_⟩
  · rw [firstAsked?_after, hfirst]
    rfl
  · exact (hheld x hx).of_isPrefix (hext q)

theorem Remembers.after_of_same
    (hmemo : (s.after c).workspace.superclasses = s.workspace.superclasses)
    (hevent : ∀ d, d.externalClass?.isSome = true → s.workspace.superclasses.find? d = none →
      Event.answerer? d ⟨c, (c.perform s.workspace).1⟩ = none) : (s.after c).Remembers where
  kept d answer hd := by
    rw [hmemo] at hd
    exact h.kept_after hs hc hd
  unasked d hclass hd := by
    rw [hmemo] at hd
    rw [firstAsked?_after, h.unasked d hclass hd, hevent d hclass hd]
    rfl

end Step

section Question

variable {answer : Option Descriptor} {next : Registry} {memo : SuperclassMemo}

theorem perform_of_superclassOf
    (h : (s.workspace.registry r).superclassOf s.workspace.superclasses d =
      .ok (answer, next, memo)) :
    (Call.superclassOf r d).perform s.workspace =
      (.ok answer.toList, { s.workspace.setRegistry r next with superclasses := memo }) := by
  rw [Call.perform_superclassOf, h]

theorem answerer?_of_superclassOf
    (h : (s.workspace.registry r).superclassOf s.workspace.superclasses d =
      .ok (answer, next, memo)) (e : Descriptor) :
    Event.answerer? e ⟨.superclassOf r d, ((Call.superclassOf r d).perform s.workspace).1⟩ =
      if d.identity = e.identity then some r else none := by
  rw [perform_of_superclassOf h]
  rfl

variable (hs : s.Sound) (hc : s.Allows (.superclassOf r d)) (h : s.Remembers)

include hs hc h

/-- A question that was answered before, or that has no answer, adds nothing. -/
theorem Remembers.after_recall
    (hsuper : (s.workspace.registry r).superclassOf s.workspace.superclasses d =
      .ok (answer, next, s.workspace.superclasses))
    (hknown : d.externalClass? = none ∧ answer = none ∨
      s.workspace.superclasses.find? d = some answer) :
    (s.after (.superclassOf r d)).Remembers := by
  have hmemo : (s.after (.superclassOf r d)).workspace.superclasses = s.workspace.superclasses := by
    rw [after, perform_of_superclassOf hsuper]
  refine h.after_of_same hs hc hmemo fun e hclass hnone => ?_
  rw [answerer?_of_superclassOf hsuper, if_neg]
  intro hidentity
  rcases hknown with ⟨hno, -⟩ | hfound
  · rw [← Descriptor.isSome_externalClass?_congr (congrArg Identity.key hidentity), hno] at hclass
    simp at hclass
  · rw [SuperclassMemo.find?_congr _ hidentity, hnone] at hfound
    simp at hfound

/-- The first answer to a question is kept with the registry that gave it. -/
theorem Remembers.after_first {t : ExternalType}
    (hsuper : (s.workspace.registry r).superclassOf s.workspace.superclasses d =
      .ok (answer, next, s.workspace.superclasses.record d answer))
    (hnew : s.workspace.superclasses.find? d = none) (ht : d.externalClass? = some t)
    (hright : t.HasSuperclass answer) (hheld : ∀ x, answer = some x → next.Holds x) :
    (s.after (.superclassOf r d)).Remembers := by
  have hmemo : (s.after (.superclassOf r d)).workspace.superclasses =
      s.workspace.superclasses.record d answer := by
    rw [after, perform_of_superclassOf hsuper]
  have hnext : (s.after (.superclassOf r d)).workspace.registry r = next := by
    rw [after, perform_of_superclassOf hsuper]
    show (s.workspace.setRegistry r next).registry r = next
    rw [Workspace.registry_setRegistry (hc.registry r rfl), if_pos rfl]
  have hext := Call.external?_of_externalClass? ht
  constructor
  · intro e known he
    rw [hmemo, SuperclassMemo.find?_record] at he
    cases hold : s.workspace.superclasses.find? e with
    | some earlier =>
      rw [hold, Option.some_or, Option.some.injEq] at he
      exact he ▸ h.kept_after hs hc hold
    | none =>
      rw [hold, Option.none_or] at he
      by_cases hidentity : d.identity = e.identity
      · rw [if_pos hidentity, Option.some.injEq] at he
        subst he
        have hfirst : s.firstAsked? e = none := by
          rw [← s.firstAsked?_congr hidentity]
          exact h.unasked d (by simp [ht]) hnew
        have hknown : (s.after (.superclassOf r d)).Knows d :=
          (hc.argument d rfl (by simp [hext])).after _
        refine ⟨d, t, r, hknown, hidentity, hext, hright, ?_, fun x hx => ?_⟩
        · rw [firstAsked?_after, hfirst, Option.none_or, answerer?_of_superclassOf hsuper,
            if_pos hidentity]
        · rw [hnext]
          exact hheld x hx
      · simp [hidentity] at he
  · intro e hclass he
    rw [hmemo, SuperclassMemo.find?_record] at he
    obtain ⟨hold, hother⟩ := Option.or_eq_none_iff.mp he
    rw [firstAsked?_after, h.unasked e hclass hold, answerer?_of_superclassOf hsuper, if_neg]
    · rfl
    · intro hidentity
      simp [hidentity] at hother

/-- One more question for a superclass: it was answered before, or its answer is the first. -/
theorem Remembers.after_superclassOf : (s.after (.superclassOf r d)).Remembers := by
  rcases hsuper : (s.workspace.registry r).superclassOf s.workspace.superclasses d with
    fault | ⟨answer, next, memo⟩
  · have hperform : (Call.superclassOf r d).perform s.workspace = (.error fault, s.workspace) := by
      rw [Call.perform_superclassOf, hsuper]
    refine h.after_of_same hs hc (by rw [after, hperform]) fun e _ _ => ?_
    rw [hperform]
    rfl
  · rcases Registry.superclassOf_eq_ok hsuper with
      ⟨-, rfl, hknown⟩ | ⟨hnew, rfl, t, ht, hcomputed⟩
    · exact h.after_recall hs hc hsuper hknown
    · obtain ⟨hright, hheld⟩ :=
        Registry.superclass_of_computed (hs.workspace.canonical r) hcomputed
      exact h.after_first hs hc hsuper hnew ht hright hheld

end Question

theorem Remembers.after (hs : s.Sound) (hc : s.Allows c) (h : s.Remembers) :
    (s.after c).Remembers := by
  by_cases hask : ∃ r d, c = .superclassOf r d
  · obtain ⟨r, d, rfl⟩ := hask
    exact h.after_superclassOf hs hc
  · have hne : ∀ r d, c ≠ .superclassOf r d := fun r d he => hask ⟨r, d, he⟩
    refine h.after_of_same hs hc (Call.superclasses_perform hne) fun d _ _ => ?_
    cases c with
    | superclassOf r d => exact absurd rfl (hne r d)
    | _ => cases (Call.perform _ s.workspace).1 <;> rfl

theorem Reachable.remembers (h : s.Reachable) : s.Remembers := by
  induction h with
  | refl => exact start_remembers
  | tail hsteps hstep ih =>
    obtain ⟨hc⟩ := hstep
    exact ih.after (Steps.sound hsteps start_sound) hc

/-- Where a superclass `x` of `d` comes from that the registry `r` just answered: from `q`, which may
be `r` itself. -/
structure ComesFrom (s : Session) (r : Nat) (d x : Descriptor) (q : Nat) : Prop where
  recorded : ∃ t u, d.external? = some t ∧ t.superclass = some u ∧ u.MayBeSuperclass ∧
    x.key = .external u.qualifiedName u.kind
  lasting : ∀ s', s.Steps s' → s'.HandsOut q x
  /-- Any other registry has to have the same descriptor for the type. -/
  own : ∀ s', s.Steps s' → (s'.HandsOut r x ↔
    (s'.workspace.registry r).find? x.key = (s'.workspace.registry q).find? x.key)

/-- What was answered for a superclass is kept from then on. -/
theorem find?_of_answer (h : ((Call.superclassOf r d).perform s.workspace).1 = .ok [x]) :
    (s.after (.superclassOf r d)).workspace.superclasses.find? d = some (some x) := by
  have hperform := Call.perform_superclassOf s.workspace r d
  rcases hsuper : (s.workspace.registry r).superclassOf s.workspace.superclasses d with
    fault | ⟨answer, next, memo⟩ <;> simp only [hsuper] at hperform
  · simp [hperform] at h
  rw [hperform] at h
  obtain rfl : answer = some x := by
    cases answer with
    | none => simp at h
    | some y => simpa using h
  simp only [after, hperform]
  rcases Registry.superclassOf_eq_ok hsuper with
    ⟨-, rfl, ⟨-, hno⟩ | hfound⟩ | ⟨hnew, rfl, -⟩
  · simp at hno
  · exact hfound
  · rw [SuperclassMemo.find?_record, hnew, if_pos rfl]
    rfl

/-- The first registry that answered has answered for all, and the one that is asked now only where
none did before. -/
theorem reachable_comesFrom (h : s.Reachable) (hallow : s.Allows (.superclassOf r d))
    (hanswer : ((Call.superclassOf r d).perform s.workspace).1 = .ok [x]) :
    (s.after (.superclassOf r d)).ComesFrom r d x ((s.firstAsked? d).getD r) := by
  have hstep : s.Steps (s.after (.superclassOf r d)) := .single (.call hallow)
  have hreach : (s.after (.superclassOf r d)).Reachable := h.trans hstep
  have hs : (s.after (.superclassOf r d)).Sound := Steps.sound hreach start_sound
  obtain ⟨known, t, q, hknown, hidentity, ht, ⟨u, hu, hcheck, hkey⟩, hfirst, hheld⟩ :=
    hreach.remembers.kept d _ (find?_of_answer hanswer)
  have hq : (s.firstAsked? d).getD r = q := by
    rw [firstAsked?_after, hanswer] at hfirst
    cases hasked : s.firstAsked? d <;> simpa [hasked, Event.answerer?] using hfirst
  rw [hq]
  have hplain : u.MayBeSuperclass := by
    by_contra hn
    rw [u.check_plainClass, if_neg hn] at hcheck
    simp at hcheck
  have hxkey : x.key = .external u.qualifiedName u.kind := by
    rw [ExternalType.key?_of_ne (by simp [hplain.1]), Option.some.injEq] at hkey
    exact hkey.symm
  have hholds : ∀ s', (s.after (.superclassOf r d)).Steps s' →
      s'.Sound ∧ (s'.workspace.registry q).Holds x := by
    intro s' hsteps
    exact ⟨hsteps.sound hs, (hheld x rfl).of_isPrefix (hsteps.extends hs q)⟩
  have hhands : ∀ s', (s.after (.superclassOf r d)).Steps s' → ∀ m,
      s'.HandsOut m x ↔ (s'.workspace.registry m).Holds x := by
    intro s' hsteps m
    obtain ⟨hs', hq⟩ := hholds s' hsteps
    exact hs'.handsOut_iff (hs'.workspace.genuine_of_holds hq) hxkey
  refine ⟨⟨t, u, ?_, hu, hplain, hxkey⟩, fun s' hsteps => ?_, fun s' hsteps => ?_⟩
  · -- of one identity there is one descriptor, so that what is kept is about this one
    obtain ⟨t', ht', -⟩ := Descriptor.key_eq_external_iff.mp
      ((congrArg Identity.key hidentity).symm.trans (known.key_of_external? ht))
    have hext : d.external? = some t' := by simp [Descriptor.external?, ht']
    have hd : (s.after (.superclassOf r d)).Knows d :=
      (hallow.argument d rfl (by simp [hext])).after _
    obtain rfl := hs.identity_inj hknown hd (Descriptor.isDefined_of_external? ht)
      (Descriptor.isDefined_of_external? hext) hidentity
    exact ht
  · exact (hhands s' hsteps q).mpr (hholds s' hsteps).2
  · have hheld : (s'.workspace.registry q).find? x.key = some x := (hholds s' hsteps).2
    rw [hhands s' hsteps r, hheld]
    rfl

def derived : Descriptor := ⟨0, .external sampleDerived⟩

def askedBefore : Session :=
  [.wrap 0 .anyType sampleDerived, .newRegistry, .superclassOf 0 derived].foldl after start

theorem askedBefore_reachable : askedBefore.Reachable := by
  have hall : start.AllowsAll
      [.wrap 0 .anyType sampleDerived, .newRegistry, .superclassOf 0 derived] := by decide +kernel
  exact hall.steps

/-- Asked later, the second registry answers what the first one made. -/
theorem askedBefore_comesFrom : askedBefore.Reachable ∧
    askedBefore.Allows (.superclassOf 1 derived) ∧
    (askedBefore.after (.superclassOf 1 derived)).ComesFrom 1 derived ⟨0, .external sampleBase⟩ 0 := by
  have hallow : askedBefore.Allows (.superclassOf 1 derived) := by decide +kernel
  have hanswer : ((Call.superclassOf 1 derived).perform askedBefore.workspace).1 =
      .ok [⟨0, .external sampleBase⟩] := by decide +kernel
  have hcomes := reachable_comesFrom askedBefore_reachable hallow hanswer
  rw [show askedBefore.firstAsked? derived = some 0 by decide +kernel] at hcomes
  exact ⟨askedBefore_reachable, hallow, hcomes⟩

/-- So what the second registry answers for one type are two descriptors: this one for the
superclass, and one of its own for a reference. -/
theorem superclass_of_other_registry : askedBefore.Reachable ∧
    askedBefore.Allows (.superclassOf 1 derived) ∧
    ((Call.superclassOf 1 derived).perform askedBefore.workspace).1 =
      .ok [⟨0, .external sampleBase⟩] ∧
    ((Call.wrap 1 .anyType sampleBase).perform
      (askedBefore.after (.superclassOf 1 derived)).workspace).1 =
      .ok [⟨1, .external sampleBase⟩] ∧
    ¬ (askedBefore.after (.superclassOf 1 derived)).HandsOut 1 ⟨0, .external sampleBase⟩ := by
  have hown : ((Call.wrap 1 .anyType sampleBase).perform
      (askedBefore.after (.superclassOf 1 derived)).workspace).1 =
      .ok [⟨1, .external sampleBase⟩] := by decide +kernel
  refine ⟨askedBefore_reachable, by decide +kernel, by decide +kernel, hown, fun hands => ?_⟩
  have hother := (hands sampleBase rfl).symm.trans hown
  exact absurd hother (by decide)

end Session

end DeclForest
