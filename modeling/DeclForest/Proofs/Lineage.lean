import DeclForest.Proofs.Provenance

/-!
The superclasses of an external class, one above the other. Each is asked for of any registry, and
the answer may have been kept since it was first asked for, by another registry and for another
reference to the same type. As long as a name and a kind mean one type throughout a session, all of
this is not seen: the descriptors follow the references that are nested in the first one, up to the
end or to one that cannot be a superclass, and that one is refused whenever it is asked for.
-/

namespace DeclForest

namespace ExternalType

/-- The references from a type up to one of its superclasses, each recorded by the one before. -/
inductive Lineage (e : ExternalType) : List ExternalType → ExternalType → Prop where
  | self : Lineage e [e] e
  | up {ts : List ExternalType} {t u : ExternalType} : Lineage e ts t → t.superclass = some u →
      Lineage e (ts ++ [u]) u

def MayBeSuperclass (t : ExternalType) : Prop :=
  t.kind = .classType ∧ Primitive.ofKeyword? t.qualifiedName = none

instance (t : ExternalType) : Decidable t.MayBeSuperclass :=
  inferInstanceAs (Decidable (_ ∧ _))

def refusal (t : ExternalType) : Fault :=
  if t.kind = .classType then .invalidClass t.qualifiedName "a reference type"
  else .invalidClass t.sourceName "a class"

theorem check_plainClass (t : ExternalType) :
    Position.plainClass.check t = if t.MayBeSuperclass then .ok () else .error t.refusal := by
  unfold Position.check MayBeSuperclass refusal
  by_cases hk : t.kind = .classType
  · by_cases hp : Primitive.ofKeyword? t.qualifiedName = none
    · simp [Position.admits, hk, hp]
    · simp [Position.admits, hk, hp, Option.isSome_iff_ne_none]
  · simp [Position.admits, Position.expected, hk]

def IsClassLike (t : ExternalType) : Prop := t.kind = .classType ∨ t.kind = .enumType

theorem IsClassLike.ne_primitiveType {t : ExternalType} (h : t.IsClassLike) :
    t.kind ≠ .primitiveType := by
  rcases h with hk | hk <;> simp [hk]

end ExternalType

structure Descriptor.IsOf (d : Descriptor) (t : ExternalType) : Prop where
  type : d.external? = some t
  classLike : t.IsClassLike

theorem Descriptor.IsOf.key {d : Descriptor} {t : ExternalType} (h : d.IsOf t) :
    t.key? = some d.key := by
  rw [ExternalType.key?_of_ne h.classLike.ne_primitiveType, d.key_of_external? h.type]

theorem Descriptor.map_key_of_isOf {ds : List Descriptor} {ts : List ExternalType}
    (h : List.Forall₂ IsOf ds ts) : ds.map (fun d => some d.key) = ts.map ExternalType.key? := by
  induction h with
  | nil => rfl
  | cons hof _ ih => simp [hof.key, ih]

namespace Registry

variable {r r' : Registry} {t : ExternalType} {position : Position} {ts : List ExternalType}
  {ds : List Descriptor}

theorem exists_wrap_plainClass (r : Registry) (ht : t.MayBeSuperclass) :
    ∃ d r', r.wrap .plainClass t = .ok (d, r') := by
  have hkind : t.kind ≠ .primitiveType := by simp [ht.1]
  unfold wrap
  rw [t.check_plainClass, if_pos ht, ok_bind]
  cases r.find? (.external t.qualifiedName t.kind) with
  | some known => exact ⟨known, r, rfl⟩
  | none =>
    rw [referent_of_ne hkind]
    exact ⟨_, _, rfl⟩

theorem wrap_plainClass_of_not (r : Registry) (ht : ¬ t.MayBeSuperclass) :
    r.wrap .plainClass t = .error t.refusal := by
  unfold wrap
  rw [t.check_plainClass, if_neg ht]
  rfl

/-- An accepted batch answers the types that its references name. -/
theorem Canonical.keys_of_wrapEach (hr : r.Canonical)
    (h : (r.wrapEach position ts).1 = .ok ds) :
    ds.map (fun d => some d.key) = ts.map ExternalType.key? := by
  induction ts generalizing r ds with
  | nil =>
    obtain rfl : [] = ds := Except.ok.inj h
    rfl
  | cons t rest ih =>
    rcases hw : r.wrap position t with fault | ⟨first, r'⟩
    · simp [wrapEach, collect, hw] at h
    · rw [wrapEach_cons hw] at h
      obtain ⟨others, ho, rfl⟩ := map_eq_ok.mp h
      simp [hr.key_of_wrap hw, ih (hr.wrap hw) ho]

end Registry

namespace Session

variable {s s' : Session} {d top next : Descriptor} {ds : List Descriptor} {e t : ExternalType}
  {r : Nat} {position : Position}

/-- How a session answers the question for the superclass of a descriptor of a type: as the type
records it. A refusal leaves no trace. -/
structure Recalls (s : Session) (r : Nat) (d : Descriptor) (t : ExternalType) : Prop where
  ends : ((Call.superclassOf r d).perform s.workspace).1 = .ok [] ↔ t.superclass = none
  continues : ∀ key,
    (∃ next, ((Call.superclassOf r d).perform s.workspace).1 = .ok [next] ∧ next.key = key) ↔
      ∃ u, t.superclass = some u ∧ u.MayBeSuperclass ∧ u.key? = some key
  refuses : ∀ fault, ((Call.superclassOf r d).perform s.workspace).1 = .error fault ↔
    ∃ u, t.superclass = some u ∧ ¬ u.MayBeSuperclass ∧ fault = u.refusal
  spares : ∀ fault, ((Call.superclassOf r d).perform s.workspace).1 = .error fault →
    ((Call.superclassOf r d).perform s.workspace).2 = s.workspace ∧
      s.workspace.superclasses.find? d = none

inductive Verdict (s : Session) (d : Descriptor) (t : ExternalType) :
    Except Fault (List Descriptor) × Workspace → Prop where
  | ends {w : Workspace} : t.superclass = none → Verdict s d t (.ok [], w)
  | continues {w : Workspace} {u : ExternalType} {next : Descriptor} : t.superclass = some u →
      u.MayBeSuperclass → u.key? = some next.key → Verdict s d t (.ok [next], w)
  | refused {u : ExternalType} : t.superclass = some u → ¬ u.MayBeSuperclass →
      s.workspace.superclasses.find? d = none →
      Verdict s d t (.error u.refusal, s.workspace)

theorem Verdict.recalls (h : s.Verdict d t ((Call.superclassOf r d).perform s.workspace)) :
    s.Recalls r d t := by
  generalize hp : (Call.superclassOf r d).perform s.workspace = result at h
  cases h with
  | ends hnone =>
    constructor <;> simp [hp, hnone]
  | continues hu hplain hkey =>
    constructor <;> simp [hp, hu, hplain, hkey]
  | refused hu hplain hmemo =>
    constructor <;> simp [hp, hu, hplain, hmemo, eq_comm]

theorem Traced.hasSuperclass_of_find? (ht : s.Traced) (hc : s.Consistent)
    (hd : s.Mentions t) (hx : d.external? = some t) {answer : Option Descriptor}
    (hm : s.workspace.superclasses.find? d = some answer) : t.HasSuperclass answer := by
  obtain ⟨a, ha, rfl⟩ := Option.map_eq_some_iff.mp hm
  obtain ⟨t', ht', hkey, hright⟩ := ht.memo a (List.mem_of_find?_eq_some ha)
  have hidentity : a.1 = d.identity := by simpa using List.find?_some ha
  rw [hidentity] at hkey
  obtain ⟨hname, hkind⟩ := TypeKey.external.inj (hkey.symm.trans (d.key_of_external? hx))
  rwa [hc t' t ht' hd hname hkind] at hright

/-- Kept or computed, an answer is what the reference of the descriptor records. -/
theorem verdict_superclassOf (hs : s.Sound) (ht : s.Traced) (hc : s.Consistent) (hd : s.Knows d)
    (hx : d.IsOf t) (r : Nat) : s.Verdict d t ((Call.superclassOf r d).perform s.workspace) := by
  have hclass : d.externalClass? = some t := by
    refine Option.filter_eq_some_iff.mpr ⟨hx.type, ?_⟩
    rcases hx.classLike with hk | hk <;> simp [hk, ExternalKind.isInterfaceLike]
  have hmention := ht.mentions hs hd hx.type
  rw [Call.perform_superclassOf]
  unfold Registry.superclassOf
  rw [hclass]
  cases hm : s.workspace.superclasses.find? d with
  | some answer =>
    have hright := ht.hasSuperclass_of_find? hc hmention hx.type hm
    cases answer with
    | none => exact .ends hright
    | some known =>
      obtain ⟨u, hu, hcheck, hkey⟩ := hright
      have hplain : u.MayBeSuperclass := by
        by_contra hn
        rw [u.check_plainClass, if_neg hn] at hcheck
        simp at hcheck
      exact .continues hu hplain hkey
  | none =>
    cases hu : t.superclass with
    | none =>
      simp only [hu]
      exact .ends hu
    | some u =>
      by_cases hplain : u.MayBeSuperclass
      · obtain ⟨next, r', hw⟩ := (s.workspace.registry r).exists_wrap_plainClass hplain
        have hkey := (hs.workspace.canonical r).key_of_wrap hw
        simp only [hu, hw]
        exact .continues hu hplain hkey
      · simp only [hu, Registry.wrap_plainClass_of_not _ hplain]
        exact .refused hu hplain hm

/-- A walk from a descriptor up its superclasses, each asked for of some registry and each answered,
with any calls in between: the session that it has led to, the descriptors and the last of them. -/
inductive Climb (s : Session) (d : Descriptor) : Session → List Descriptor → Descriptor → Prop where
  | start : Climb s d s [d] d
  | between {s' s'' : Session} {ds : List Descriptor} {top : Descriptor} :
      Climb s d s' ds top → Step s' s'' → Climb s d s'' ds top
  | up {s' : Session} {ds : List Descriptor} {top next : Descriptor} {r : Nat} :
      Climb s d s' ds top → s'.Allows (.superclassOf r top) →
      ((Call.superclassOf r top).perform s'.workspace).1 = .ok [next] →
      Climb s d (s'.after (.superclassOf r top)) (ds ++ [next]) next

theorem Climb.steps (h : s.Climb d s' ds top) : s.Steps s' := by
  induction h with
  | start => exact .refl
  | between _ hstep ih => exact ih.tail hstep
  | up _ hallow _ ih => exact ih.tail (.call hallow)

theorem knows_of_answer {c : Call} (h : (c.perform s.workspace).1 = .ok [d]) :
    (s.after c).Knows d := by
  refine ⟨⟨c, (c.perform s.workspace).1⟩, List.mem_append_right _ (List.mem_singleton_self _), ?_⟩
  simp [Event.mem_answers_iff, h]

theorem Knows.steps (h : s.Knows d) (hs : s.Steps s') : s'.Knows d := by
  induction hs with
  | refl => exact h
  | tail _ hstep ih =>
    obtain ⟨hc⟩ := hstep
    obtain ⟨event, hevent, hd⟩ := ih
    exact ⟨event, List.mem_append_left _ hevent, hd⟩

/-- Where a name and a kind mean one type, a descriptor of the key of a reference is of it. -/
theorem external?_of_key (hs : s.Sound) (ht : s.Traced) (hc : s.Consistent) (hd : s.Knows d)
    (hu : s.Mentions t) (hk : t.kind ≠ .primitiveType) (hkey : t.key? = some d.key) :
    d.external? = some t := by
  rw [ExternalType.key?_of_ne hk, Option.some.injEq, eq_comm,
    Descriptor.key_eq_external_iff] at hkey
  obtain ⟨t', hx, hname, hkind⟩ := hkey
  have hx' : d.external? = some t' := by simp [Descriptor.external?, hx]
  rw [hx', hc t' t (ht.mentions hs hd hx') hu hname hkind]

structure Climbed (e : ExternalType) (s : Session) (ds : List Descriptor) (top : Descriptor)
    (ts : List ExternalType) (t : ExternalType) : Prop where
  lineage : e.Lineage ts t
  types : List.Forall₂ Descriptor.IsOf ds ts
  last : top.IsOf t
  known : s.Knows top

/-- By induction on the walk: a step leads to a descriptor of the type that is recorded next. -/
theorem Climb.climbed (h : s.Climb d s' ds top) (hreach : s.Reachable) (hd : s.Knows d)
    (hx : d.IsOf e) (hc : s'.Consistent) : ∃ ts t, Climbed e s' ds top ts t := by
  induction h with
  | start => exact ⟨[e], e, .self, .cons hx .nil, hx, hd⟩
  | between _ hstep ih =>
    obtain ⟨ts, t, hlineage, htypes, hlast, hknown⟩ := ih (hc.of_steps (.single hstep))
    exact ⟨ts, t, hlineage, htypes, hlast, hknown.steps (.single hstep)⟩
  | @up s₁ ds top next r hclimb hallow hanswer ih =>
    have hstep : s₁.Steps (s₁.after (.superclassOf r top)) := .single (.call hallow)
    have hreach₁ : s₁.Reachable := hreach.trans hclimb.steps
    have hs₁ := Steps.sound hreach₁ start_sound
    have hc₁ := hc.of_steps hstep
    obtain ⟨ts, t, hlineage, htypes, hlast, hknown⟩ := ih hc₁
    have hrecalls := (verdict_superclassOf hs₁ hreach₁.traced hc₁ hknown hlast r).recalls
    obtain ⟨u, hu, hplain, hkey⟩ := (hrecalls.continues next.key).mp ⟨next, hanswer, rfl⟩
    have hmention : (s₁.after (.superclassOf r top)).Mentions u :=
      ((hreach₁.traced.mentions hs₁ hknown hlast.type).superclass hu).after _
    have hnext := knows_of_answer hanswer
    have htype := external?_of_key (hs₁.after hallow) (Reachable.traced (hreach₁.trans hstep)) hc
      hnext hmention (by simp [hplain.1]) hkey
    have hof : next.IsOf u := ⟨htype, .inl hplain.1⟩
    exact ⟨ts ++ [u], u, hlineage.up hu, List.rel_append htypes (.cons hof .nil), hof, hnext⟩

structure Follows (e : ExternalType) (s : Session) (ds : List Descriptor) (top : Descriptor)
    (ts : List ExternalType) (t : ExternalType) : Prop where
  lineage : e.Lineage ts t
  keys : ds.map (fun d => some d.key) = ts.map ExternalType.key?
  /-- Now and at any later time, and by any registry. -/
  recalls : ∀ s', s.Steps s' → s'.Consistent → ∀ r < s'.workspace.registries.size,
    s'.Recalls r top t
  interfaces : ∀ s', s.Steps s' → ∀ r < s'.workspace.registries.size,
    List.Forall₂ (fun d t => ∀ faces,
      ((Call.interfacesOf r d).perform s'.workspace).1 = .ok faces →
        faces.map (fun face => some face.key) = t.interfaces.map ExternalType.key?) ds ts

theorem Climbed.follows {ts : List ExternalType} (h : Climbed e s ds top ts t)
    (hreach : s.Reachable) : Follows e s ds top ts t where
  lineage := h.lineage
  keys := Descriptor.map_key_of_isOf h.types
  recalls s' hs' hc r _ := by
    have hreach' : s'.Reachable := hreach.trans hs'
    exact (verdict_superclassOf (Steps.sound hreach' start_sound) hreach'.traced hc
      (h.known.steps hs') h.last r).recalls
  interfaces s' hs' r _ := by
    have hs : s'.Sound := Steps.sound (hreach.trans hs') start_sound
    refine h.types.imp fun d t hof faces hfaces => ?_
    rw [Call.perform_interfacesOf, Registry.interfacesOf, hof.type] at hfaces
    exact (hs.workspace.canonical r).keys_of_wrapEach hfaces

theorem reachable_climb (h : s.Reachable) (hallow : s.Allows (.wrap r position e))
    (hw : ((Call.wrap r position e).perform s.workspace).1 = .ok [d]) (hk : e.IsClassLike)
    (hclimb : (s.after (.wrap r position e)).Climb d s' ds top) (hc : s'.Consistent) :
    ∃ ts t, Follows e s' ds top ts t := by
  have hstep : s.Steps (s.after (.wrap r position e)) := .single (.call hallow)
  have hreach : (s.after (.wrap r position e)).Reachable := h.trans hstep
  have hs := Steps.sound h start_sound
  have hd := knows_of_answer hw
  have hmention : (s.after (.wrap r position e)).Mentions e := by
    apply mentions_of_event
    simp [hw, Event.wrapped]
  have hkey : e.key? = some d.key := by
    obtain ⟨d', hd', hkey, -⟩ :=
      (hs.workspace.transparent (hallow.registry r rfl) position e).answer _ hw
    obtain rfl := List.singleton_inj.mp hd'
    exact hkey
  have htype := external?_of_key (Steps.sound hreach start_sound) hreach.traced
    (hc.of_steps hclimb.steps) hd hmention hk.ne_primitiveType hkey
  obtain ⟨ts, t, hclimbed⟩ := hclimb.climbed hreach hd ⟨htype, hk⟩ hc
  exact ⟨ts, t, hclimbed.follows (hreach.trans hclimb.steps)⟩

theorem consistent_of_forall (types : List ExternalType)
    (hwrapped : ∀ event ∈ s.history, ∀ t ∈ event.wrapped, t ∈ types)
    (hrecorded : ∀ t ∈ types, ∀ u ∈ t.recorded, u ∈ types)
    (hone : ∀ a ∈ types, ∀ b ∈ types, a.qualifiedName = b.qualifiedName → a.kind = b.kind → a = b) :
    s.Consistent := by
  have hmentions : ∀ t, s.Mentions t → t ∈ types := by
    rintro t ⟨first, ⟨event, hevent, hm⟩, hpath⟩
    induction hpath with
    | refl => exact hwrapped event hevent first hm
    | tail _ hu ih => exact hrecorded _ ih _ hu
  exact fun a b ha hb => hone a (hmentions a ha) b (hmentions b hb)

def sampleRoot : ExternalType := ⟨"a.Root", .classType, some sampleFace, []⟩

def sampleEnum : ExternalType := ⟨"a.Color", .enumType, some sampleRoot, [sampleFace]⟩

def enumStart : Session := [.newRegistry, .wrap 0 .plainClass sampleEnum].foldl after start

def enumWrapped : Session := enumStart.after (.wrap 0 .anyType sampleEnum)

def enumClimbed : Session :=
  [.superclassOf 1 ⟨0, .external sampleEnum⟩, .superclassOf 0 ⟨1, .external sampleRoot⟩].foldl after
    enumWrapped

/-- The superclass comes from the second registry. Above it neither of the two finds another one. -/
theorem enumClimbed_follows : ∃ ts t, Follows sampleEnum enumClimbed
      [⟨0, .external sampleEnum⟩, ⟨1, .external sampleRoot⟩] ⟨1, .external sampleRoot⟩ ts t ∧
    ((Call.superclassOf 1 ⟨1, .external sampleRoot⟩).perform enumClimbed.workspace).1 =
      .error (.invalidClass "a.Face" "a class") := by
  have hallowed : start.AllowsAll [.newRegistry, .wrap 0 .plainClass sampleEnum] := by
    decide +kernel
  have hclimb : enumWrapped.Climb ⟨0, .external sampleEnum⟩ enumClimbed
      [⟨0, .external sampleEnum⟩, ⟨1, .external sampleRoot⟩] ⟨1, .external sampleRoot⟩ := by
    have hup : ((Call.superclassOf 1 ⟨0, .external sampleEnum⟩).perform enumWrapped.workspace).1 =
        .ok [⟨1, .external sampleRoot⟩] := by decide +kernel
    exact (Climb.start.up (by decide +kernel) hup).between (.call (by decide +kernel))
  have hc : enumClimbed.Consistent := by
    apply consistent_of_forall [sampleEnum, sampleRoot, sampleFace] <;> decide +kernel
  obtain ⟨ts, t, hfollows⟩ := reachable_climb hallowed.steps (by decide +kernel)
    (by decide +kernel) (.inr rfl) hclimb hc
  exact ⟨ts, t, hfollows, by decide +kernel⟩

end Session

end DeclForest
