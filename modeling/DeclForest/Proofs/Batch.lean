import DeclForest.Proofs.Outcome

/-!
Batches of members. A batch is checked as a whole against the forest as it stands, and only then are
its members attached; registered one after the other, each of them is checked against a forest that
has those before it. Both come to the same: a new member of a type changes no verdict about another
declaration, the words of a refusal included, and about itself only that nothing is left to do.
-/

namespace DeclForest

namespace Content

variable (c : Content) (id : DeclId)

@[simp] theorem describe_withMember (d : DeclId) :
    (c.withMember id).describe d = c.describe d := by
  cases c <;> rfl

@[simp] theorem modifiers_withMember : (c.withMember id).modifiers = c.modifiers := by
  cases c <;> rfl

@[simp] theorem construct?_withMember (kind : Option OwnerKind) :
    (c.withMember id).construct? kind = c.construct? kind := by
  rcases kind with _ | kind
  · cases c <;> rfl
  · cases c <;> cases kind <;> rfl

@[simp] theorem mayHold_withMember (kind : OwnerKind) :
    kind.mayHold (c.withMember id) = kind.mayHold c := by
  cases c <;> cases kind <;> rfl

end Content

namespace Forest

def registerEach (o : Owner) (ids : List DeclId) : Edit Unit := ids.forM fun id => register id o

theorem registerEach_cons (o : Owner) (id : DeclId) (ids : List DeclId) :
    registerEach o (id :: ids) = (do register id o; registerEach o ids) := rfl

variable {f g : Forest} {a b t : DeclId} {x : Declaration} {kind : OwnerKind}

/-- The new member is not above its type, so that the way up from the type stays. -/
theorem Admissible.ancestors_attach (h : f.Admissible a (.type t) x kind) :
    (f.attach a (.type t)).ancestors t = f.ancestors t := by
  have houtside := h.outside
  simp only [ownerIsWithin, decide_eq_false_iff_not] at houtside
  unfold ancestors at houtside ⊢
  rw [size_decls_attach_type]
  apply ancestorsWithin_congr
  intro z hz
  have hza : z ≠ a := fun he => houtside (he ▸ hz)
  rw [h.owner?_attach z]
  simp [hza, replaced?]

section Attached

variable (hf : f.Invariant) (h : f.Admissible a (.type t) x kind)

include hf h

theorem Invariant.describe_attach (d : DeclId) :
    (f.attach a (.type t)).describe d = f.describe d := by
  unfold describe
  rw [hf.get?_attach h]
  cases f.get? d with
  | none => rfl
  | some y =>
    simp only [Option.map_some]
    split <;> simp

theorem Invariant.describeOwner_attach (o : Owner) :
    (f.attach a (.type t)).describeOwner o = f.describeOwner o := by
  cases o with
  | unit u => rfl
  | type s => exact hf.describe_attach h s

theorem Invariant.standsAs_attach : (f.attach a (.type t)).StandsAs (.type t) kind :=
  (hf.attach_registered h).standsAs_iff.mpr (ownerKind_eq_ok_iff.mp h.ownerKind)

/-- A new member changes no verdict about another declaration, nor the words of a refusal. -/
theorem Invariant.checkRegistration_attach (hb : b ≠ a) :
    (f.attach a (.type t)).checkRegistration b (.type t) = f.checkRegistration b (.type t) := by
  have hy := hf.get?_attach h b
  cases hx : f.get? b with
  | none =>
    rw [hx] at hy
    rw [checkRegistration_of_unknown hx, checkRegistration_of_unknown hy]
  | some y =>
    have hstands : f.StandsAs (.type t) kind := ownerKind_eq_ok_iff.mp h.ownerKind
    have hwithin : (f.attach a (.type t)).ownerIsWithin b (.type t) =
        f.ownerIsWithin b (.type t) := by
      simp only [ownerIsWithin, h.ancestors_attach]
    rw [hx] at hy
    rw [checkRegistration_of_found hx hstands,
      checkRegistration_of_found hy (hf.standsAs_attach h)]
    simp only [hf.describe_attach h, hf.describeOwner_attach h, hwithin]
    by_cases htb : t = b <;> simp [htb, hb, slot?]

/-- About the new member itself there is nothing left to do. -/
theorem Invariant.checkRegistration_attach_self :
    (f.attach a (.type t)).checkRegistration a (.type t) = .ok .alreadyThere := by
  have hy := hf.get?_attach h a
  rw [h.found] at hy
  rw [checkRegistration_of_found hy (hf.standsAs_attach h)]
  simp

end Attached

def attachEach (f : Forest) (t : DeclId) (ids : List DeclId) : Forest :=
  ids.foldl (fun f id => f.attach id (.type t)) f

theorem attachEach_cons (f : Forest) (t a : DeclId) (ids : List DeclId) :
    f.attachEach t (a :: ids) = (f.attach a (.type t)).attachEach t ids := rfl

theorem attachEach_append (f : Forest) (t : DeclId) (ids rest : List DeclId) :
    f.attachEach t (ids ++ rest) = (f.attachEach t ids).attachEach t rest :=
  List.foldl_append

theorem Batch.attachEach_invariant {ids : List DeclId} (hf : f.Invariant)
    (hb : f.Batch (.type t) ids) : (f.attachEach t ids).Invariant :=
  Changes.keep (P := fun _ => True) Change.invariant hb.changes hf

/-- After a batch the verdict about a declaration is the one before it, or else the declaration is
among the new members. -/
theorem Batch.checkRegistration_attachEach {ids : List DeclId} (hf : f.Invariant)
    (hb : f.Batch (.type t) ids) (b : DeclId) :
    (f.attachEach t ids).checkRegistration b (.type t) =
      if b ∈ ids then .ok .alreadyThere else f.checkRegistration b (.type t) := by
  induction ids generalizing f with
  | nil => simp [attachEach]
  | cons a ids ih =>
    obtain ⟨x, kind, ha⟩ := checkRegistration_eq_pending_iff.mp (hb.2 a List.mem_cons_self)
    have hrest := ih (hf.attach ha) hb.after_attach
    rw [attachEach_cons, hrest]
    by_cases hin : b ∈ ids
    · simp [hin]
    by_cases hba : b = a
    · subst hba
      simp [hin, hf.checkRegistration_attach_self ha]
    · simp [hin, hba, hf.checkRegistration_attach ha hba]

/-- What is still to be registered, found by checks alone, is what registrations one after the other
attach; where a check refuses, the registration of the same declaration does, in the same words. -/
theorem Batch.run_registerEach {found : List DeclId} (hf : f.Invariant)
    (hb : f.Batch (.type t) found) (ids : List DeclId) :
    (∃ all, ids.foldlM (f.pendingStep (.type t)) found = .ok all ∧
      (registerEach (.type t) ids).run (f.attachEach t found) = (.ok (), f.attachEach t all)) ∨
    ∃ fault g, ids.foldlM (f.pendingStep (.type t)) found = .error fault ∧
      (registerEach (.type t) ids).run (f.attachEach t found) = (.error fault, g) := by
  induction ids generalizing found with
  | nil => exact .inl ⟨found, rfl, rfl⟩
  | cons id ids ih =>
    have hverdict := hb.checkRegistration_attachEach hf id
    rw [List.foldlM_cons, registerEach_cons]
    cases hc : f.checkRegistration id (.type t) with
    | error fault =>
      have hnew : id ∉ found := by
        intro hin
        rw [hb.2 id hin] at hc
        simp at hc
      rw [if_neg hnew, hc] at hverdict
      refine .inr ⟨fault, f.attachEach t found, ?_, ?_⟩
      · simp [pendingStep, hc]
      · rw [Edit.run_bind, run_register_of_error hverdict]
    | ok verdict =>
      by_cases hdone : verdict = .alreadyThere ∨ id ∈ found
      · have hkeep : f.pendingStep (.type t) found id = .ok found := by
          simp only [pendingStep, hc, ok_bind]
          rcases hdone with rfl | hin <;> simp [*]
        have hthere : (f.attachEach t found).checkRegistration id (.type t) =
            .ok .alreadyThere := by
          rw [hverdict]
          rcases hdone with rfl | hin <;> simp [*]
        rw [hkeep, ok_bind, Edit.run_bind_of_ok (run_register_of_alreadyThere hthere)]
        exact ih hb
      · obtain ⟨hpending, hnew⟩ := not_or.mp hdone
        obtain rfl : verdict = .pending := by cases verdict <;> simp_all
        have hadd : f.pendingStep (.type t) found id = .ok (found ++ [id]) := by
          simp [pendingStep, hc, hnew]
        rw [if_neg hnew, hc] at hverdict
        rw [hadd, ok_bind,
          Edit.run_bind_of_ok ((hb.attachEach_invariant hf).run_register hverdict)]
        have hrest := ih (pendingStep_batch hb hadd)
        rwa [attachEach_append] at hrest

/-- A batch is checked before anything is attached. -/
theorem run_addAll {definition : TypeDefinition} (ht : f.type? t = some definition)
    (ids : List DeclId) :
    (addAll t ids).run f =
      match f.pending (.type t) ids with
      | .ok found => (.ok (), f.attachEach t found)
      | .error fault => (.error fault, f) := by
  unfold addAll
  rw [Edit.run_inspect_bind_of_ok (typeDefinition_eq_ok_iff.mpr ht), Edit.run_inspect_bind]
  cases hp : f.pending (.type t) ids with
  | error fault => rfl
  | ok found => exact (pending_batch hp).run_commit

/-- A sequence that is refused is refused where one of its members is, after those before it. -/
theorem Invariant.exists_refused {o : Owner} {ids : List DeclId} {fault : Fault} (hf : f.Invariant)
    (h : (registerEach o ids).run f = (.error fault, g)) :
    ∃ before id rest, ids = before ++ id :: rest ∧ (registerEach o before).run f = (.ok (), g) ∧
      (register id o).run g = (.error fault, g) := by
  induction ids generalizing f with
  | nil => simp [registerEach] at h
  | cons id ids ih =>
    rw [registerEach_cons, Edit.run_bind] at h
    rcases hr : (register id o).run f with ⟨result, f'⟩
    rw [hr] at h
    cases result with
    | error other =>
      obtain ⟨rfl, rfl⟩ : other = fault ∧ f' = g := by simpa using h
      obtain rfl := hf.register_spares id o other f' hr
      exact ⟨[], id, ids, rfl, rfl, hr⟩
    | ok _ =>
      have hchanges : Changes (fun _ => True) f f' := by simpa [hr] using makes_register id o f
      have hf' : f'.Invariant := Changes.keep Change.invariant hchanges hf
      obtain ⟨before, id', rest, rfl, hbefore, hrefused⟩ := ih hf' h
      refine ⟨id :: before, id', rest, rfl, ?_, hrefused⟩
      rw [registerEach_cons, Edit.run_bind_of_ok hr]
      exact hbefore

/-- Adding a batch to a type is registering its members one after the other, but for a refusal,
which leaves the forest as it was. -/
structure AllOrNothing (f : Forest) (t : DeclId) (ids : List DeclId) : Prop where
  all : ∀ g, (registerEach (.type t) ids).run f = (.ok (), g) → (addAll t ids).run f = (.ok (), g)
  nothing : ∀ fault g, (registerEach (.type t) ids).run f = (.error fault, g) →
    (addAll t ids).run f = (.error fault, f)
  /-- The fault of the sequence is that of the first member that is refused. -/
  first : ∀ fault g, (registerEach (.type t) ids).run f = (.error fault, g) →
    ∃ before id rest, ids = before ++ id :: rest ∧
      (registerEach (.type t) before).run f = (.ok (), g) ∧
      (register id (.type t)).run g = (.error fault, g)

theorem Invariant.run_addAll_eq (hf : f.Invariant) {definition : TypeDefinition}
    (ht : f.type? t = some definition) (ids : List DeclId) :
    (addAll t ids).run f =
      match (registerEach (.type t) ids).run f with
      | (.ok (), g) => (.ok (), g)
      | (.error fault, _) => (.error fault, f) := by
  have hnone : f.Batch (.type t) [] := ⟨List.nodup_nil, by simp⟩
  have hstart : f.attachEach t [] = f := rfl
  have hrun := hnone.run_registerEach hf ids
  rw [hstart] at hrun
  rw [run_addAll ht, pending_eq_foldlM]
  rcases hrun with ⟨all, hp, hr⟩ | ⟨fault, g, hp, hr⟩
  · rw [hp, hr]
  · rw [hp, hr]

theorem reachable_addAll_allOrNothing (h : f.Reachable) {definition : TypeDefinition}
    (ht : f.type? t = some definition) (ids : List DeclId) : f.AllOrNothing t ids := by
  have hf := reachable_invariant h
  constructor
  · intro g hg
    rw [hf.run_addAll_eq ht, hg]
  · intro fault g hg
    rw [hf.run_addAll_eq ht, hg]
  · exact fun fault g hg => hf.exists_refused hg

/-- The class of the sample takes the constructor without an owner, which is named twice around the
nested class that it has already; a field of the nested class then undoes all of it. -/
theorem sample_addAll_allOrNothing : sample.Reachable ∧
    sample.type? ⟨2⟩ = some { TypeDefinition.ofName .classKind "C" with members := [⟨3⟩] } ∧
    sample.AllOrNothing ⟨2⟩ [⟨8⟩, ⟨3⟩, ⟨8⟩] ∧
    (addAll ⟨2⟩ [⟨8⟩, ⟨3⟩, ⟨8⟩]).run sample = (.ok (), sample.attach ⟨8⟩ (.type ⟨2⟩)) ∧
    sample.AllOrNothing ⟨2⟩ [⟨8⟩, ⟨3⟩, ⟨4⟩] ∧
    (addAll ⟨2⟩ [⟨8⟩, ⟨3⟩, ⟨4⟩]).run sample =
      (.error (.ownershipConflict "field `x`" "class `D`" "class `C`"), sample) := by
  have ht : sample.type? ⟨2⟩ =
      some { TypeDefinition.ofName .classKind "C" with members := [⟨3⟩] } := by decide +kernel
  have hgood := reachable_addAll_allOrNothing sample_reachable ht [⟨8⟩, ⟨3⟩, ⟨8⟩]
  have hbad := reachable_addAll_allOrNothing sample_reachable ht [⟨8⟩, ⟨3⟩, ⟨4⟩]
  refine ⟨sample_reachable, ht, hgood, hgood.all _ (by decide +kernel), hbad, ?_⟩
  exact hbad.nothing _ (sample.attach ⟨8⟩ (.type ⟨2⟩)) (by decide +kernel)

end Forest

end DeclForest
