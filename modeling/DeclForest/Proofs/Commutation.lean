import DeclForest.Proofs.Batch

/-!
Registrations that do not depend on each other. Two declarations that go into different collections
may be registered in either order, also where the one is to stand inside the other: a way up that
the second registration would close into a cycle leads over both new links, and is then the same
cycle in the other order.
-/

namespace DeclForest

inductive UnitSlot where
  | package | imports | staticImports | types
  deriving DecidableEq, Repr

def Content.slot : Content → UnitSlot
  | .package _ => .package
  | .typeImport _ => .imports
  | .staticImport .. => .staticImports
  | _ => .types

theorem Content.withMember_eq_package_iff {c : Content} {id : DeclId} {name : String} :
    c.withMember id = .package name ↔ c = .package name := by
  cases c <;> simp [withMember]

namespace CompilationUnit

variable (u : CompilationUnit) (a b : DeclId) (c : Content)

@[simp] theorem receiving_withMember (id : DeclId) :
    u.receiving a (c.withMember id) = u.receiving a c := by
  cases c <;> rfl

variable {c} in
theorem receiving_comm {c' : Content} (h : c.slot ≠ c'.slot) :
    (u.receiving a c).receiving b c' = (u.receiving b c').receiving a c := by
  cases c <;> cases c' <;> simp_all [receiving, Content.slot]

end CompilationUnit

namespace Forest

variable {f g k : Forest} {a b d p q : DeclId} {o₁ o₂ : Owner} {x : Declaration} {kind : OwnerKind}

/-- Registered at these owners, the two declarations would stand in one collection. -/
inductive SharesCollection (f : Forest) (a b : DeclId) : Owner → Owner → Prop where
  | members (t : DeclId) : SharesCollection f a b (.type t) (.type t)
  | unit {u : UnitId} {x y : Declaration} : f.get? a = some x → f.get? b = some y →
      x.content.slot = y.content.slot → SharesCollection f a b (.unit u) (.unit u)

theorem Invariant.standsAs_of_owner? (hf : f.Invariant) {o : Owner} (h : f.owner? d = some o) :
    ∃ kind, f.StandsAs o kind := by
  cases o with
  | type t =>
    obtain ⟨definition, ht, -⟩ := hf.owner?_type_iff.mp h
    exact ⟨_, .type ht⟩
  | unit u =>
    obtain ⟨unit, -, hu, -, -⟩ := hf.owner?_unit_iff.mp h
    exact ⟨_, .unit hu⟩

/-- A registration succeeds where nothing is left to do or nothing speaks against it. -/
theorem Invariant.run_register_eq_ok_iff (hf : f.Invariant) {o : Owner} :
    (register a o).run f = (.ok (), g) ↔
      (f.owner? a = some o ∧ g = f) ∨ ∃ x kind, f.Admissible a o x kind ∧ g = f.attach a o := by
  constructor
  · intro h
    cases hf.outcome_iff.mp h with
    | same hx hk ho => exact .inl ⟨by simp [owner?, hx, ho], rfl⟩
    | registered hx hk ho hfit hin hm hg =>
      have ha := hf.admissible hx hk ho hfit hin hm
      exact .inr ⟨_, _, ha, hg.unique (hf.attach_registered ha)⟩
  · rintro (⟨ho, rfl⟩ | ⟨x, kind, ha, rfl⟩)
    · obtain ⟨kind, hk⟩ := hf.standsAs_of_owner? ho
      obtain ⟨x, hx, ho⟩ := exists_get?_of_owner? ho
      exact hf.outcome_iff.mpr (.same hx hk ho)
    · exact hf.run_register (checkRegistration_eq_pending_iff.mpr ⟨x, kind, ha⟩)

section Attached

variable (hf : f.Invariant) (h : f.Admissible b o₂ x kind)

include hf h

theorem Invariant.not_liesWithin : ¬ f.LiesWithin b o₂ := by
  have hout := h.outside
  rwa [← Bool.not_eq_true, hf.ownerIsWithin_iff] at hout

/-- A way up in the longer forest takes the new link once or not at all. -/
theorem Invariant.reflTransGen_attach
    (hp : Relation.ReflTransGen (f.attach b o₂).OwnedBy p q) :
    Relation.ReflTransGen f.OwnedBy p q ∨
      Relation.ReflTransGen f.OwnedBy p b ∧
        ∃ t, o₂ = .type t ∧ Relation.ReflTransGen f.OwnedBy t q := by
  induction hp with
  | refl => exact .inl .refl
  | @tail r q _ hlink ih =>
    rcases (hf.ownedBy_attach h).mp hlink with ⟨rfl, rfl⟩ | ⟨-, hold⟩
    · rcases ih with hpr | ⟨hpr, -⟩
      · exact .inr ⟨hpr, q, rfl, .refl⟩
      · exact .inr ⟨hpr, q, rfl, .refl⟩
    · rcases ih with hpr | ⟨hpb, t, ht, htr⟩
      · exact .inl (hpr.tail hold)
      · exact .inr ⟨hpb, t, ht, htr.tail hold⟩

theorem Invariant.ownedBy_attach_of_ownedBy (ho : f.OwnedBy p q) : (f.attach b o₂).OwnedBy p q := by
  refine (hf.ownedBy_attach h).mpr (.inr ⟨?_, ho⟩)
  rintro rfl
  exact absurd (ho.symm.trans h.owner?_eq_none) (by simp)

theorem Invariant.reflTransGen_attach_of_reflTransGen
    (hp : Relation.ReflTransGen f.OwnedBy p q) :
    Relation.ReflTransGen (f.attach b o₂).OwnedBy p q :=
  Relation.ReflTransGen.mono (fun _ _ => hf.ownedBy_attach_of_ownedBy h) _ _ hp

end Attached

section Both

variable (hf : f.Invariant) (ha : f.Admissible a o₁ x kind)
  (hx : ∀ name, x.content ≠ .package name)

include hf ha hx

/-- What a declaration is stays, but for a new member. -/
theorem Invariant.content_attach {y y' : Declaration} (hy : f.get? b = some y)
    (hy' : (f.attach a o₁).get? b = some y') :
    y'.content = y.content ∨ y'.content = y.content.withMember a := by
  rw [hf.get?_attach_of_not_package ha hx, hy, Option.map_some, Option.some.injEq] at hy'
  subst hy'
  by_cases ho : o₁ = .type b <;> simp [ho]

theorem Invariant.owner?_attach_of_ne (hb : b ≠ a) : (f.attach a o₁).owner? b = f.owner? b := by
  unfold owner?
  rw [hf.get?_attach_of_not_package ha hx]
  cases f.get? b <;> simp [hb]

/-- To the check of another declaration an attachment is no more than a link on the way up. -/
theorem Invariant.pending_attach_iff (hb : b ≠ a) :
    (f.attach a o₁).checkRegistration b o₂ = .ok .pending ↔
      f.checkRegistration b o₂ = .ok .pending ∧ ¬ (f.attach a o₁).LiesWithin b o₂ := by
  have hget := hf.get?_attach_of_not_package ha hx b
  simp only [hb, if_false] at hget
  have hfa := hf.attach ha
  simp only [checkRegistration_eq_pending_iff]
  constructor
  · rintro ⟨y', k, hy'⟩
    obtain ⟨y, hy, rfl⟩ := Option.map_eq_some_iff.mp (hget.symm.trans hy'.found)
    have hout := hfa.not_liesWithin hy'
    refine ⟨⟨y, k, hf.admissible hy ?_ hy'.detached ?_ ?_ ?_⟩, hout⟩
    · exact (hf.attach_registered ha).standsAs_iff.mp (ownerKind_eq_ok_iff.mp hy'.ownerKind)
    · have hfit := hy'.fits
      rw [Content.fits_eq_mayHold] at hfit
      split at hfit <;> simpa using hfit
    · cases o₂ with
      | unit u => exact id
      | type t => exact fun hin => hout (hf.reflTransGen_attach_of_reflTransGen ha hin)
    · have hlegal := hy'.legal
      split at hlegal <;> simpa using hlegal
  · rintro ⟨⟨y, k, hy⟩, hout⟩
    have hy' := hget
    rw [hy.found, Option.map_some] at hy'
    refine ⟨_, k, hfa.admissible hy' ?_ hy.detached ?_ hout ?_⟩
    · exact (hf.attach_registered ha).standsAs_iff.mpr (ownerKind_eq_ok_iff.mp hy.ownerKind)
    · have hfit := hy.fits
      rw [Content.fits_eq_mayHold] at hfit
      split <;> simpa using hfit
    · have hlegal := hy.legal
      split <;> simpa using hlegal

end Both

section Swap

variable {y : Declaration} {kind' : OwnerKind} (hf : f.Invariant)
  (ha : f.Admissible a o₁ x kind) (hb : f.Admissible b o₂ y kind')

include hf ha hb

/-- A cycle through both of two new links is one whichever of them is added first. -/
theorem Invariant.liesWithin_of_liesWithin_attach (hin : (f.attach b o₂).LiesWithin a o₁) :
    (f.attach a o₁).LiesWithin b o₂ := by
  cases o₁ with
  | unit u => exact hin.elim
  | type t₁ =>
    rcases hf.reflTransGen_attach hb hin with hold | ⟨htb, t₂, rfl, hta⟩
    · exact absurd hold (hf.not_liesWithin ha)
    · -- from the owner of `b` up to `a`, over the new link, and from the owner of `a` up to `b`
      have hbelow := hf.reflTransGen_attach_of_reflTransGen ha hta
      have hlink : (f.attach a (.type t₁)).OwnedBy a t₁ := by
        exact (hf.ownedBy_attach ha).mpr (.inl ⟨rfl, rfl⟩)
      have habove := hf.reflTransGen_attach_of_reflTransGen ha htb
      exact (hbelow.tail hlink).trans habove

variable (hx : ∀ name, x.content ≠ .package name) (hy : ∀ name, y.content ≠ .package name)
  (hs : ¬ f.SharesCollection a b o₁ o₂)

include hx hy hs

theorem Invariant.attach_comm (hab : a ≠ b)
    (hb' : (f.attach a o₁).checkRegistration b o₂ = .ok .pending)
    (ha' : (f.attach b o₂).checkRegistration a o₁ = .ok .pending) :
    (f.attach a o₁).attach b o₂ = (f.attach b o₂).attach a o₁ := by
  obtain ⟨y', k', hb'⟩ := checkRegistration_eq_pending_iff.mp hb'
  obtain ⟨x', k, ha'⟩ := checkRegistration_eq_pending_iff.mp ha'
  have hgeta := hf.get?_attach_of_not_package ha hx
  have hgetb := hf.get?_attach_of_not_package hb hy
  have hyc := hf.content_attach ha hx hb.found hb'.found
  have hxc := hf.content_attach hb hy ha.found ha'.found
  have hy' : ∀ name, y'.content ≠ .package name := by
    rcases hyc with he | he <;> simp [he, Content.withMember_eq_package_iff, hy]
  have hx' : ∀ name, x'.content ≠ .package name := by
    rcases hxc with he | he <;> simp [he, Content.withMember_eq_package_iff, hx]
  have hry (unit : CompilationUnit) : unit.receiving b y'.content = unit.receiving b y.content := by
    rcases hyc with he | he <;> simp [he]
  have hrx (unit : CompilationUnit) : unit.receiving a x'.content = unit.receiving a x.content := by
    rcases hxc with he | he <;> simp [he]
  apply eq_of_look_ups
  · simp
  · intro d
    rw [(hf.attach ha).get?_attach_of_not_package hb' hy', hgeta,
      (hf.attach hb).get?_attach_of_not_package ha' hx', hgetb]
    cases f.get? d with
    | none => rfl
    | some z =>
      have hcontent : ¬ (o₁ = .type d ∧ o₂ = .type d) := by
        rintro ⟨rfl, rfl⟩
        exact hs (.members d)
      have howner : ¬ (d = a ∧ d = b) := by
        rintro ⟨rfl, rfl⟩
        exact hab rfl
      grind
  · intro u
    rw [(hf.attach ha).unit?_attach hb', hf.unit?_attach ha, (hf.attach hb).unit?_attach ha',
      hf.unit?_attach hb]
    cases f.unit? u with
    | none => rfl
    | some unit =>
      simp only [Option.map_some, hrx, hry, Option.some.injEq]
      by_cases h₁ : o₁ = .unit u
      · by_cases h₂ : o₂ = .unit u
        · have hslot : x.content.slot ≠ y.content.slot := by
            subst h₁ h₂
            exact fun he => hs (.unit ha.found hb.found he)
          simp [h₁, h₂, CompilationUnit.receiving_comm unit a b hslot]
        · simp [h₁, h₂]
      · simp [h₁]

end Swap

/-- Two registrations into different collections may change places. -/
theorem Invariant.register_comm (hf : f.Invariant) (hab : a ≠ b)
    (ha : ∀ name, f.content? a ≠ some (.package name))
    (hb : ∀ name, f.content? b ≠ some (.package name)) (hs : ¬ f.SharesCollection a b o₁ o₂)
    (h₁ : (register a o₁).run f = (.ok (), g)) (h₂ : (register b o₂).run g = (.ok (), k)) :
    ∃ g', (register b o₂).run f = (.ok (), g') ∧ (register a o₁).run g' = (.ok (), k) := by
  rcases hf.run_register_eq_ok_iff.mp h₁ with ⟨hao, rfl⟩ | ⟨x, kind, hadm, rfl⟩
  · -- nothing is left to do for `a`, and still nothing after `b`
    refine ⟨k, h₂, ?_⟩
    rcases hf.run_register_eq_ok_iff.mp h₂ with ⟨-, rfl⟩ | ⟨y, kind', hbdm, rfl⟩
    · exact h₁
    · have hy : ∀ name, y.content ≠ .package name := by
        simpa [content?_of_get? hbdm.found] using hb
      refine (hf.attach hbdm).run_register_eq_ok_iff.mpr (.inl ⟨?_, rfl⟩)
      rwa [hf.owner?_attach_of_ne hbdm hy hab]
  · have hx : ∀ name, x.content ≠ .package name := by
      simpa [content?_of_get? hadm.found] using ha
    rcases (hf.attach hadm).run_register_eq_ok_iff.mp h₂ with ⟨hbo, rfl⟩ | ⟨y', kind', hbdm', rfl⟩
    · -- nothing was left to do for `b`, before `a` either
      rw [hf.owner?_attach_of_ne hadm hx hab.symm] at hbo
      exact ⟨f, hf.run_register_eq_ok_iff.mpr (.inl ⟨hbo, rfl⟩), h₁⟩
    · have hpb := checkRegistration_eq_pending_iff.mpr ⟨y', kind', hbdm'⟩
      obtain ⟨hpending, hout⟩ := (hf.pending_attach_iff hadm hx hab.symm).mp hpb
      obtain ⟨y, kind', hbdm⟩ := checkRegistration_eq_pending_iff.mp hpending
      have hy : ∀ name, y.content ≠ .package name := by
        simpa [content?_of_get? hbdm.found] using hb
      have hpa : (f.attach b o₂).checkRegistration a o₁ = .ok .pending := by
        refine (hf.pending_attach_iff hbdm hy hab).mpr ⟨?_, fun hin => hout ?_⟩
        · exact checkRegistration_eq_pending_iff.mpr ⟨x, kind, hadm⟩
        · exact hf.liesWithin_of_liesWithin_attach hadm hbdm hin
      refine ⟨f.attach b o₂, hf.run_register hpending, ?_⟩
      rw [hf.attach_comm hadm hbdm hx hy hs hab hpb hpa]
      exact (hf.attach hbdm).run_register hpa

theorem reachable_register_comm (h : f.Reachable) (hab : a ≠ b)
    (ha : ∀ name, f.content? a ≠ some (.package name))
    (hb : ∀ name, f.content? b ≠ some (.package name)) (hs : ¬ f.SharesCollection a b o₁ o₂)
    (h₁ : (register a o₁).run f = (.ok (), g)) (h₂ : (register b o₂).run g = (.ok (), k)) :
    ∃ g', (register b o₂).run f = (.ok (), g') ∧ (register a o₁).run g' = (.ok (), k) :=
  (reachable_invariant h).register_comm hab ha hb hs h₁ h₂

def stackRun : List Operation :=
  [.declare (.type (.ofName .classKind "Outer")), .addNew ⟨0⟩ (.type (.ofName .classKind "Inner")),
   .declare (.type (.ofName .classKind "Innermost")),
   .declare (.type (.ofName .classKind "Outermost"))]

def stack : Forest := (empty 0).after stackRun

/-- The innermost class goes into the nested one before or after the class around that goes into the
outermost one; either way all four come to stand inside each other. -/
theorem stack_register_comm : ∃ g g' k, (register ⟨2⟩ (.type ⟨1⟩)).run stack = (.ok (), g) ∧
    (register ⟨0⟩ (.type ⟨3⟩)).run g = (.ok (), k) ∧
    (register ⟨0⟩ (.type ⟨3⟩)).run stack = (.ok (), g') ∧
    (register ⟨2⟩ (.type ⟨1⟩)).run g' = (.ok (), k) ∧
    k.ancestors ⟨2⟩ = [⟨2⟩, ⟨1⟩, ⟨0⟩, ⟨3⟩] := by
  have hinnermost : stack.content? ⟨2⟩ = some (.type (.ofName .classKind "Innermost")) := by
    decide +kernel
  have houter : stack.content? ⟨0⟩ =
      some (.type { TypeDefinition.ofName .classKind "Outer" with members := [⟨1⟩] }) := by
    decide +kernel
  have h₁ : (register ⟨2⟩ (.type ⟨1⟩)).run stack = (.ok (), stack.attach ⟨2⟩ (.type ⟨1⟩)) := by
    decide +kernel
  have h₂ : (register ⟨0⟩ (.type ⟨3⟩)).run (stack.attach ⟨2⟩ (.type ⟨1⟩)) =
      (.ok (), (stack.attach ⟨2⟩ (.type ⟨1⟩)).attach ⟨0⟩ (.type ⟨3⟩)) := by decide +kernel
  have hstack : stack.Reachable := ⟨0, stackRun, rfl⟩
  have hs : ¬ stack.SharesCollection ⟨2⟩ ⟨0⟩ (.type ⟨1⟩) (.type ⟨3⟩) := nofun
  obtain ⟨g', h₁', h₂'⟩ := reachable_register_comm hstack (by decide) (by simp [hinnermost])
    (by simp [houter]) hs h₁ h₂
  exact ⟨_, g', _, h₁, h₂, h₁', h₂', by decide +kernel⟩

end Forest

end DeclForest
