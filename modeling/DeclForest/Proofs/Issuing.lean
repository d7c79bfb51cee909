import DeclForest.Proofs.Frame
import DeclForest.Proofs.Legality

/-!
Who issued the descriptors of the types of a forest. A type that was asked for its descriptor keeps
the number of the forest that issued it; no operation but the asking writes such a number, and what
is declared has none, be it a copy of a type that has.
-/

namespace DeclForest

namespace Content

def issuer? (c : Content) : Option Nat := c.type?.bind TypeDefinition.issuer

@[simp] theorem issuer?_fresh (c : Content) : c.fresh.issuer? = none := by
  cases c <;> rfl

@[simp] theorem issuer?_setModifiers (m : Modifiers) (c : Content) :
    (c.setModifiers m).issuer? = c.issuer? := by
  cases c <;> rfl

end Content

namespace TypeDefinition

variable {t t' : TypeDefinition}

@[simp] theorem issuer_addMember (t : TypeDefinition) (id : DeclId) :
    (t.addMember id).issuer = t.issuer := by
  unfold addMember
  split <;> rfl

@[simp] theorem issuer_implementing (t : TypeDefinition) (face : Descriptor) :
    (t.implementing face).issuer = t.issuer := by
  unfold implementing
  split <;> rfl

theorem issuer_extending {super : Descriptor} (h : t.extending super = .ok t') :
    t'.issuer = t.issuer := by
  obtain ⟨-, -, rfl⟩ := extending_eq_ok_iff.mp h
  rfl

end TypeDefinition

namespace Forest

open Edit

variable {f g : Forest} {id t : DeclId} {u : UnitId} {o : Owner} {definition : TypeDefinition}

def issuer? (f : Forest) (id : DeclId) : Option Nat := (f.content? id).bind Content.issuer?

theorem issuer?_of_type? (ht : f.type? id = some definition) :
    f.issuer? id = definition.issuer := by
  simp [issuer?, content?_eq_type_iff.mpr ht, Content.issuer?, Content.type?]

theorem issuer?_updateDecl {change : Declaration → Declaration}
    (h : ∀ x, f.get? id = some x → (change x).content.issuer? = x.content.issuer?) :
    (f.updateDecl id change).issuer? = f.issuer? := by
  funext d
  by_cases hd : d = id
  · subst hd
    cases hx : f.get? d with
    | none => simp [issuer?, content?, hx]
    | some x => simp [issuer?, content?, hx, h x hx]
  · simp [issuer?, content?, hd]

theorem issuer?_updateType {change : TypeDefinition → TypeDefinition}
    (h : ∀ definition, f.type? id = some definition →
      (change definition).issuer = definition.issuer) :
    (f.updateType id change).issuer? = f.issuer? := by
  refine issuer?_updateDecl fun x hx => ?_
  rcases x with ⟨c, o, k⟩
  cases c with
  | type definition => exact h definition (type?_eq_some_iff.mpr ⟨o, k, hx⟩)
  | _ => rfl

theorem issuer?_withNew (f : Forest) (c : Content) : (f.withNew c).issuer? = f.issuer? := by
  funext d
  by_cases hd : d = ⟨f.decls.size⟩
  · subst hd
    simp [issuer?, content?, get?_withNew_self, get?_size]
  · simp [issuer?, content?, withNew, get?_push, hd]

theorem issuer?_setOwner (f : Forest) (id : DeclId) (o : Option Owner) :
    (f.setOwner id o).issuer? = f.issuer? :=
  issuer?_updateDecl fun _ _ => rfl

theorem issuer?_attach (f : Forest) (id : DeclId) (o : Owner) :
    (f.attach id o).issuer? = f.issuer? := by
  cases o with
  | type t =>
    have hadd : (f.attach id (.type t)).issuer? = (f.setOwner id (some (.type t))).issuer? := by
      exact issuer?_updateType fun definition _ => definition.issuer_addMember id
    rw [hadd, issuer?_setOwner]
  | unit u =>
    cases hx : f.get? id with
    | none => simp [attach, hx]
    | some x =>
      have hheld : (f.updateUnit u (·.hold id x.content)).issuer? = f.issuer? := rfl
      rw [attach_unit hx]
      cases f.replaced? id (.unit u) with
      | none => rw [issuer?_setOwner, hheld]
      | some previous => rw [issuer?_setOwner, issuer?_setOwner, hheld]

theorem disregards_issuer? : Disregards issuer? where
  newUnit _ := rfl
  declare f c := f.issuer?_withNew c
  attach f id o := f.issuer?_attach id o
  modifiers _ _ m := issuer?_updateDecl fun x _ => x.content.issuer?_setModifiers m
  comments _ _ _ := issuer?_updateDecl fun _ _ => rfl
  superInterface _ _ face := issuer?_updateType fun definition _ => definition.issuer_implementing face
  superclass f id super t t' ht he := by
    refine issuer?_updateType fun definition hd => ?_
    obtain rfl := Option.some.inj (ht.symm.trans hd)
    exact TypeDefinition.issuer_extending he

theorem disregards_number : Disregards number where
  newUnit _ := rfl
  declare _ _ := rfl
  attach f id o := f.number_attach id o
  modifiers _ _ _ := rfl
  comments _ _ _ := rfl
  superInterface _ _ _ := rfl
  superclass _ _ _ _ _ _ _ := rfl

theorem run_definedType (ht : f.type? id = some definition) :
    (definedType id).run f =
      (.ok ⟨definition.issuer.getD f.number, .defined id definition.name definition.kind⟩,
        f.updateType id fun t => { t with issuer := some (definition.issuer.getD f.number) }) := by
  unfold definedType
  rw [run_inspect_bind_of_ok (typeDefinition_eq_ok_iff.mpr ht)]
  rfl

theorem run_definedType_of_none (ht : f.type? id = none) :
    ∃ fault, (definedType id).run f = (.error fault, f) := by
  cases hd : f.typeDefinition id with
  | ok definition => simp [typeDefinition_eq_ok_iff.mp hd] at ht
  | error fault =>
    refine ⟨fault, ?_⟩
    unfold definedType
    rw [run_inspect_bind, hd]

theorem definedType_eq_ok {d : Descriptor} (h : ((definedType id).run f).1 = .ok d) :
    ∃ t, f.type? id = some t ∧ d = ⟨(f.issuer? id).getD f.number, .defined id t.name t.kind⟩ := by
  cases ht : f.type? id with
  | none =>
    obtain ⟨fault, hrun⟩ := run_definedType_of_none ht
    rw [hrun] at h
    exact absurd h (by simp)
  | some t =>
    rw [run_definedType ht, ← issuer?_of_type? ht] at h
    exact ⟨t, rfl, (Except.ok.inj h).symm⟩

/-- After a type was asked for its descriptor, it has the issuer that it had, or else its forest. -/
theorem issuer?_definedType (ht : f.type? id = some definition) (d : DeclId) :
    ((definedType id).run f).2.issuer? d =
      if d = id then some ((f.issuer? id).getD f.number) else f.issuer? d := by
  obtain ⟨o, k, hx⟩ := type?_eq_some_iff.mp ht
  rw [run_definedType ht, issuer?_of_type? ht]
  by_cases hd : d = id
  · subst hd
    simp [issuer?, content?, updateType, hx, Content.issuer?, Content.type?]
  · simp [issuer?, content?, updateType, hd]

end Forest

end DeclForest
