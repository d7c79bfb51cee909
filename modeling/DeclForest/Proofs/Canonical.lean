import DeclForest.Proofs.Lookup
import Mathlib.Data.List.Nodup
import Mathlib.Logic.Relation

/-!
Registries as tables of canonical descriptors. A `Canonical` registry holds one descriptor for each
key at most, and none for a primitive reference or for a type that is named like a primitive. All
that a call may do to a registry is to take in a descriptor: one it makes itself, or one that it is
given. Entries are only ever added at the end, so what a look-up finds once it finds from then on.
-/

namespace DeclForest

def Referent.Storable : Referent → Prop
  | .primitive _ => True
  | .external t => t.kind ≠ .primitiveType ∧ Primitive.ofKeyword? t.qualifiedName = none
  | .defined .. => False

/-- The descriptor is of a primitive, or of an external type that is known as what its kind says. -/
def Descriptor.Faithful (d : Descriptor) : Prop :=
  (∃ p, d.key = .primitive p ∧ d.isPrimitive = true) ∨
    ∃ name kind, d.key = .external name kind ∧ kind ≠ .primitiveType ∧
      Primitive.ofKeyword? name = none ∧
      (d.isInterface = true ↔ kind = .interfaceType ∨ kind = .annotationType) ∧
      (d.externalClass?.isSome = true ↔ kind = .classType ∨ kind = .enumType)

theorem Referent.Storable.faithful {d : Descriptor} (h : d.referent.Storable) : d.Faithful := by
  cases hx : d.referent with
  | primitive p =>
    exact .inl ⟨p, by simp [Descriptor.key, Referent.key, Descriptor.isPrimitive, hx]⟩
  | external t =>
    rw [hx] at h
    refine .inr ⟨t.qualifiedName, t.kind, ?_, h.1, h.2, ?_, ?_⟩
    · simp [Descriptor.key, Referent.key, hx]
    · cases hk : t.kind <;> simp [Descriptor.isInterface, hx, hk, ExternalKind.isInterfaceLike]
    · have hne := h.1
      cases hk : t.kind <;>
        simp_all [Descriptor.externalClass?, Descriptor.external?, ExternalKind.isInterfaceLike]
  | defined id name kind =>
    rw [hx] at h
    exact h.elim

def Descriptor.isDefined (d : Descriptor) : Bool :=
  match d.referent with
  | .defined .. => true
  | _ => false

theorem Descriptor.isDefined_of_external? {d : Descriptor} {t : ExternalType}
    (h : d.external? = some t) : d.isDefined = false := by
  unfold external? at h
  unfold isDefined
  cases hx : d.referent <;> simp_all

namespace Registry

structure Canonical (r : Registry) : Prop where
  distinct : (r.entries.map Descriptor.key).Nodup
  storable : ∀ d ∈ r.entries, d.referent.Storable

def Holds (r : Registry) (d : Descriptor) : Prop := r.find? d.key = some d

variable {r r' r'' : Registry} {d d' : Descriptor} {x : Referent} {key : TypeKey}
  {position : Position} {t : ExternalType}

theorem empty_canonical (number : Nat) : (empty number).Canonical :=
  ⟨List.nodup_nil, by simp [empty]⟩

theorem mem_of_find? (h : r.find? key = some d) : d ∈ r.entries := List.mem_of_find?_eq_some h

theorem Canonical.holds_of_mem (hr : r.Canonical) (hd : d ∈ r.entries) : r.Holds d := by
  obtain ⟨known, hk⟩ : ∃ known, r.find? d.key = some known := by
    apply Option.isSome_iff_exists.mp
    exact List.find?_isSome.mpr ⟨d, hd, by simp⟩
  have hsame : known = d :=
    List.inj_on_of_nodup_map hr.distinct (mem_of_find? hk) hd (key_of_find? hk)
  exact hsame ▸ hk

theorem find?_of_isPrefix (h : r.entries <+: r'.entries) (hd : r.find? key = some d) :
    r'.find? key = some d := by
  obtain ⟨added, he⟩ := h
  unfold find? at hd ⊢
  rw [← he, List.find?_append, hd]
  rfl

theorem Holds.of_isPrefix (hd : r.Holds d) (h : r.entries <+: r'.entries) : r'.Holds d :=
  find?_of_isPrefix h hd

/-- Of each type a registry holds one descriptor. -/
theorem Holds.eq_iff (hd : r.Holds d) (hd' : r.Holds d') : d = d' ↔ d.key = d'.key := by
  constructor
  · rintro rfl
    rfl
  · intro hk
    exact Option.some.inj (hd.symm.trans (hk ▸ hd'))

theorem adopt_of_holds (h : r.find? d.key = some d') : r.adopt d = (d', r) := by
  simp [adopt, h]

theorem adopt_of_unknown (h : r.find? d.key = none) :
    r.adopt d = (d, { r with entries := r.entries ++ [d] }) := by
  simp [adopt, h]

theorem key_adopt (r : Registry) (d : Descriptor) : (r.adopt d).1.key = d.key :=
  key_of_find? (r.find?_adopt_self d)

theorem adopt_holds (r : Registry) (d : Descriptor) : (r.adopt d).2.Holds (r.adopt d).1 := by
  unfold Holds
  rw [key_adopt]
  exact r.find?_adopt_self d

@[simp] theorem number_adopt (r : Registry) (d : Descriptor) : (r.adopt d).2.number = r.number := by
  unfold adopt
  split <;> rfl

theorem entries_adopt (r : Registry) (d : Descriptor) :
    (r.adopt d).2.entries = r.entries ∨
      r.find? d.key = none ∧ (r.adopt d).2.entries = r.entries ++ [d] := by
  cases h : r.find? d.key with
  | some known => exact .inl (by rw [adopt_of_holds h])
  | none => exact .inr ⟨rfl, by rw [adopt_of_unknown h]⟩

theorem Canonical.adopt (hr : r.Canonical) (hd : d.referent.Storable) :
    (r.adopt d).2.Canonical := by
  rcases r.entries_adopt d with he | ⟨hn, he⟩
  · exact ⟨he ▸ hr.distinct, he ▸ hr.storable⟩
  · constructor
    · have hnew : ∀ known ∈ r.entries, known.key ≠ d.key := by
        intro known hk hkey
        have hfind : r.find? known.key = some known := hr.holds_of_mem hk
        rw [hkey, hn] at hfind
        simp at hfind
      rw [he, List.map_append, List.map_singleton]
      refine List.nodup_append.mpr ⟨hr.distinct, List.nodup_singleton _, ?_⟩
      simpa using hnew
    · rw [he]
      simpa [or_imp, forall_and] using ⟨hr.storable, hd⟩

/-- One descriptor is taken in: a new one that the registry makes, or one that it is given. -/
inductive Takes (given : Descriptor → Prop) : Registry → Registry → Prop where
  | intern {r : Registry} {x : Referent} : x.Storable → Takes given r (r.intern x).2
  | adopt {r : Registry} {d : Descriptor} : given d → Takes given r (r.adopt d).2

theorem mem_of_mem_adopt (hd : d ∈ (r.adopt d').2.entries) : d ∈ r.entries ∨ d = d' := by
  rcases r.entries_adopt d' with he | ⟨-, he⟩
  · exact .inl (he ▸ hd)
  · simpa [he] using hd

/-- A new entry was made by the registry itself or given to it. -/
theorem Takes.mem {given : Descriptor → Prop} (h : Takes given r r') (hd : d ∈ r'.entries) :
    d ∈ r.entries ∨ d.issuer = r.number ∨ given d := by
  cases h with
  | intern _ =>
    rcases mem_of_mem_adopt hd with hd | rfl
    · exact .inl hd
    · exact .inr (.inl rfl)
  | adopt hg =>
    rcases mem_of_mem_adopt hd with hd | rfl
    · exact .inl hd
    · exact .inr (.inr hg)

theorem Takes.mono {given given' : Descriptor → Prop} (h : Takes given r r')
    (hg : ∀ d, given d → given' d) : Takes given' r r' := by
  cases h with
  | intern hx => exact .intern hx
  | adopt hd => exact .adopt (hg _ hd)

abbrev Grows (given : Descriptor → Prop) : Registry → Registry → Prop :=
  Relation.ReflTransGen (Takes given)

variable {given : Descriptor → Prop}

theorem Takes.entries_isPrefix (h : Takes given r r') : r.entries <+: r'.entries := by
  have hadopt : ∀ d, r.entries <+: (r.adopt d).2.entries := by
    intro d
    rcases r.entries_adopt d with he | ⟨-, he⟩
    · exact he ▸ List.prefix_refl _
    · exact he ▸ List.prefix_append _ _
  cases h with
  | intern _ => exact hadopt _
  | adopt _ => exact hadopt _

theorem Grows.entries_isPrefix (h : Grows given r r') : r.entries <+: r'.entries := by
  induction h with
  | refl => exact List.prefix_refl _
  | tail _ ht ih => exact ih.trans ht.entries_isPrefix

/-- What a reference is checked for before it is looked up. -/
theorem check_eq_ok_iff : position.check t = .ok () ↔ position.admits t.kind = true ∧
    (t.kind = .primitiveType ∨ Primitive.ofKeyword? t.qualifiedName = none) := by
  unfold Position.check
  cases position.admits t.kind <;> by_cases hk : t.kind = .primitiveType <;>
    cases Primitive.ofKeyword? t.qualifiedName <;> simp [hk]

theorem referent_of_ne (h : t.kind ≠ .primitiveType) : t.referent = .ok (.external t) := by
  unfold ExternalType.referent
  split
  · contradiction
  · rfl

theorem storable_of_check (hc : position.check t = .ok ()) (hx : t.referent = .ok x) :
    x.Storable := by
  by_cases hk : t.kind = .primitiveType
  · unfold ExternalType.referent at hx
    rw [hk] at hx
    cases hp : Primitive.ofKeyword? t.qualifiedName with
    | none => simp [hp] at hx
    | some p =>
      simp only [hp, Except.ok.injEq] at hx
      exact hx ▸ trivial
  · obtain rfl := Except.ok.inj ((referent_of_ne hk).symm.trans hx)
    exact ⟨hk, (check_eq_ok_iff.mp hc).2.resolve_left hk⟩

/-- Nothing that a canonical registry holds answers to a primitive reference. -/
theorem Canonical.kind_ne_of_find? {name : String} {kind : ExternalKind} (hr : r.Canonical)
    (h : r.find? (.external name kind) = some d) : kind ≠ .primitiveType := by
  have hs := hr.storable d (mem_of_find? h)
  have hk := key_of_find? h
  unfold Descriptor.key at hk
  cases hx : d.referent with
  | external t =>
    rw [hx] at hs hk
    obtain ⟨-, rfl⟩ := TypeKey.external.inj hk
    exact hs.1
  | _ => simp [hx, Referent.key] at hk

/-- A reference that is accepted is interned as what its kind says, known or not. -/
theorem Canonical.wrap_eq_ok (hr : r.Canonical) (h : r.wrap position t = .ok (d, r')) :
    position.check t = .ok () ∧ ∃ x, t.referent = .ok x ∧ r.intern x = (d, r') := by
  obtain ⟨_, hcheck, h⟩ := bind_eq_ok.mp h
  refine ⟨hcheck, ?_⟩
  cases hfind : r.find? (.external t.qualifiedName t.kind) with
  | some known =>
    rw [hfind] at h
    refine ⟨.external t, referent_of_ne (hr.kind_ne_of_find? hfind), ?_⟩
    exact (adopt_of_holds hfind).trans (Except.ok.inj h)
  | none =>
    rw [hfind] at h
    obtain ⟨x, hx, h⟩ := bind_eq_ok.mp h
    exact ⟨x, hx, Except.ok.inj h⟩

theorem Takes.canonical (hg : ∀ d, given d → d.referent.Storable) (h : Takes given r r')
    (hr : r.Canonical) : r'.Canonical := by
  cases h with
  | intern hx => exact hr.adopt hx
  | adopt hd => exact hr.adopt (hg _ hd)

theorem Canonical.wrap_takes (hr : r.Canonical) (h : r.wrap position t = .ok (d, r')) :
    Takes given r r' := by
  obtain ⟨hcheck, x, hx, hi⟩ := hr.wrap_eq_ok h
  have htake : Takes given r (r.intern x).2 := .intern (storable_of_check hcheck hx)
  rwa [hi] at htake

theorem Canonical.wrap_holds (hr : r.Canonical) (h : r.wrap position t = .ok (d, r')) :
    r'.Holds d := by
  obtain ⟨-, x, -, hi⟩ := hr.wrap_eq_ok h
  have hholds : (r.intern x).2.Holds (r.intern x).1 := r.adopt_holds _
  rwa [hi] at hholds

/-- One accepted reference does no harm, whatever may be given. -/
theorem Canonical.wrap (hr : r.Canonical) (h : r.wrap position t = .ok (d, r')) :
    r'.Canonical := by
  have htake : Takes (fun _ => False) r r' := hr.wrap_takes h
  exact htake.canonical (by simp) hr

theorem Takes.number_eq (h : Takes given r r') : r'.number = r.number := by
  cases h with
  | intern _ => exact number_adopt r _
  | adopt _ => exact number_adopt r _

/-- A batch takes in what its items stand for, up to the first that is refused. -/
theorem Canonical.collect_grows {α β : Type} {type : α → ExternalType}
    {use : α → Descriptor → Except Fault β} (hr : r.Canonical) (items : List α) :
    Grows given r (r.collect position type use items).2 := by
  induction items generalizing r with
  | nil => exact .refl
  | cons item rest ih =>
    unfold collect
    split
    · exact .refl
    · rename_i d r' hw
      split
      · exact .single (hr.wrap_takes hw)
      · exact .head (hr.wrap_takes hw) (ih (hr.wrap hw))

theorem wrapEach_singleton (r : Registry) (position : Position) (t : ExternalType) :
    r.wrapEach position [t] =
      match r.wrap position t with
      | .ok (d, r') => (.ok [d], r')
      | .error fault => (.error fault, r) := by
  unfold wrapEach collect
  rw [id]
  cases r.wrap position t <;> rfl

theorem wrapEach_cons {ts : List ExternalType} (h : r.wrap position t = .ok (d, r')) :
    r.wrapEach position (t :: ts) =
      ((r'.wrapEach position ts).1.map (d :: ·), (r'.wrapEach position ts).2) := by
  simp [wrapEach, collect, h]

/-- What a batch answered is held at its end, for nothing that was taken in is lost. -/
theorem Canonical.wrapEach_holds {ts : List ExternalType} {ds : List Descriptor} (hr : r.Canonical)
    (h : (r.wrapEach position ts).1 = .ok ds) : ∀ d ∈ ds, (r.wrapEach position ts).2.Holds d := by
  induction ts generalizing r ds with
  | nil =>
    obtain rfl : [] = ds := Except.ok.inj h
    simp
  | cons t rest ih =>
    rcases hw : r.wrap position t with fault | ⟨first, r'⟩
    · simp [wrapEach, collect, hw] at h
    · rw [wrapEach_cons hw] at h ⊢
      obtain ⟨others, ho, rfl⟩ := map_eq_ok.mp h
      have hgrow : Grows (fun _ => False) r' (r'.wrapEach position rest).2 :=
        (hr.wrap hw).collect_grows rest
      intro d hd
      rcases List.mem_cons.mp hd with rfl | hd
      · exact (hr.wrap_holds hw).of_isPrefix hgrow.entries_isPrefix
      · exact ih (hr.wrap hw) ho d hd

theorem rewrap_of_isDefined (h : d.isDefined = true) : r.rewrap d = (d, r) := by
  unfold Descriptor.isDefined at h
  unfold rewrap
  split at h
  · rename_i hx
    rw [hx]
  · simp at h

theorem rewrap_grows (hd : ∀ t, d.referent = .external t → given d) :
    Grows given r (r.rewrap d).2 := by
  unfold rewrap
  cases hx : d.referent with
  | primitive p => exact .single (.intern trivial)
  | external t => exact .single (.adopt (hd t hx))
  | defined id name kind => exact .refl

theorem rewrap_holds (hd : d.isDefined = false) : (r.rewrap d).2.Holds (r.rewrap d).1 := by
  unfold rewrap
  cases hx : d.referent with
  | primitive p => exact r.adopt_holds _
  | external t => exact r.adopt_holds d
  | defined id name kind => simp [Descriptor.isDefined, hx] at hd

/-- What is held is its own answer. -/
theorem Holds.rewrap (h : r.Holds d) : r.rewrap d = (d, r) := by
  unfold Registry.rewrap
  cases hx : d.referent with
  | primitive p =>
    have hfind : r.find? (.primitive p) = some d := by
      have hkey : d.key = .primitive p := by simp [Descriptor.key, hx, Referent.key]
      exact hkey ▸ h
    show r.adopt ⟨r.number, .primitive p⟩ = (d, r)
    exact adopt_of_holds hfind
  | external t => exact adopt_of_holds h
  | defined id name kind => rfl

theorem rewrap_rewrap (r : Registry) (d : Descriptor) :
    (r.rewrap d).2.rewrap (r.rewrap d).1 = r.rewrap d := by
  cases hd : d.isDefined with
  | true =>
    rw [rewrap_of_isDefined hd]
    exact rewrap_of_isDefined hd
  | false => exact (rewrap_holds hd).rewrap

/-- What an answer to the question for a superclass comes from: the descriptor is of no external
class, or was asked before, or now gets an answer from what its reference records. -/
theorem superclassOf_eq_ok {memo memo' : SuperclassMemo} {answer : Option Descriptor}
    (h : r.superclassOf memo d = .ok (answer, r', memo')) :
    (r' = r ∧ memo' = memo ∧
        (d.externalClass? = none ∧ answer = none ∨ memo.find? d = some answer)) ∨
      memo.find? d = none ∧ memo' = memo.record d answer ∧
        ∃ t, d.externalClass? = some t ∧
          (t.superclass = none ∧ answer = none ∧ r' = r ∨
            ∃ super s, t.superclass = some super ∧ answer = some s ∧
              r.wrap .plainClass super = .ok (s, r')) := by
  unfold superclassOf at h
  cases hd : d.externalClass? with
  | none =>
    simp only [hd, Except.ok.injEq, Prod.mk.injEq] at h
    obtain ⟨rfl, rfl, rfl⟩ := h
    exact .inl ⟨rfl, rfl, .inl ⟨rfl, rfl⟩⟩
  | some t =>
    cases hm : memo.find? d with
    | some known =>
      simp only [hd, hm, Except.ok.injEq, Prod.mk.injEq] at h
      obtain ⟨rfl, rfl, rfl⟩ := h
      exact .inl ⟨rfl, rfl, .inr rfl⟩
    | none =>
      cases ht : t.superclass with
      | none =>
        simp only [hd, hm, ht, Except.ok.injEq, Prod.mk.injEq] at h
        obtain ⟨rfl, rfl, rfl⟩ := h
        exact .inr ⟨rfl, rfl, t, rfl, .inl ⟨ht, rfl, rfl⟩⟩
      | some super =>
        simp only [hd, hm, ht] at h
        obtain ⟨⟨s, r₁⟩, hw, he⟩ := map_eq_ok.mp h
        obtain ⟨rfl, rfl, rfl⟩ := Prod.mk.inj he
        exact .inr ⟨rfl, rfl, t, rfl, .inr ⟨super, s, ht, rfl, hw⟩⟩

structure Answered (given : Descriptor → Prop) (r : Registry)
    (result : Except Fault (List Descriptor) × Registry) : Prop where
  grows : Grows given r result.2
  holds : ∀ ds, result.1 = .ok ds → ∀ d ∈ ds, d.isDefined = false → result.2.Holds d

theorem answered_primitive (r : Registry) (p : Primitive) :
    Answered given r (.ok [(r.primitive p).1], (r.primitive p).2) where
  grows := .single (.intern trivial)
  holds ds hds d hd _ := by
    obtain rfl : [(r.primitive p).1] = ds := Except.ok.inj hds
    rw [List.mem_singleton.mp hd]
    exact r.adopt_holds _

theorem answered_rewrap (hd : ∀ t, d.referent = .external t → given d) :
    Answered given r (.ok [(r.rewrap d).1], (r.rewrap d).2) where
  grows := rewrap_grows hd
  holds ds hds s hs hn := by
    obtain rfl : [(r.rewrap d).1] = ds := Except.ok.inj hds
    obtain rfl := List.mem_singleton.mp hs
    cases hdef : d.isDefined with
    | true =>
      rw [rewrap_of_isDefined hdef, hdef] at hn
      simp at hn
    | false => exact rewrap_holds hdef

theorem Canonical.answered_wrapEach (hr : r.Canonical) (position : Position)
    (ts : List ExternalType) : Answered given r (r.wrapEach position ts) where
  grows := hr.collect_grows ts
  holds _ hds d hd _ := hr.wrapEach_holds hds d hd

end Registry

end DeclForest
