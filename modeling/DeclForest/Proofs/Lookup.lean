import DeclForest.Forest.Types
import DeclForest.Forest.Unit

/-!
What the look-ups of a forest answer. Each statement says for which forests a look-up succeeds and
with what, so that a chain of look-ups is taken apart with `bind_eq_ok` and no look-up is unfolded.
-/

namespace DeclForest

section Steps

variable {α β : Type}

@[simp] theorem pure_eq_ok (a : α) : (pure a : Except Fault α) = .ok a := rfl

@[simp] theorem throw_eq_error (fault : Fault) : (throw fault : Except Fault α) = .error fault :=
  rfl

@[simp] theorem ok_bind (a : α) (next : α → Except Fault β) : (.ok a >>= next) = next a := rfl

@[simp] theorem error_bind (fault : Fault) (next : α → Except Fault β) :
    (.error fault >>= next) = .error fault := rfl

theorem bind_eq_ok {x : Except Fault α} {next : α → Except Fault β} {b : β} :
    x >>= next = .ok b ↔ ∃ a, x = .ok a ∧ next a = .ok b := by
  cases x <;> simp

theorem bind_eq_error {x : Except Fault α} {next : α → Except Fault β} {fault : Fault} :
    x >>= next = .error fault ↔ x = .error fault ∨ ∃ a, x = .ok a ∧ next a = .error fault := by
  cases x <;> simp

@[simp] theorem map_eq_error {x : Except Fault α} {g : α → β} {fault : Fault} :
    x.map g = .error fault ↔ x = .error fault := by
  cases x <;> simp [Except.map]

theorem map_eq_ok {x : Except Fault α} {g : α → β} {b : β} :
    x.map g = .ok b ↔ ∃ a, x = .ok a ∧ g a = b := by
  cases x <;> simp [Except.map]

theorem exists_ok_iff {x : Except Fault α} : (∃ a, x = .ok a) ↔ ∀ fault, x ≠ .error fault := by
  cases x <;> simp

end Steps

theorem mapM_eq_filterMap {α β : Type} {step : α → Except Fault β} {look : α → Option β}
    {as : List α} (h : ∀ a ∈ as, ∃ b, look a = some b ∧ step a = .ok b) :
    as.mapM step = .ok (as.filterMap look) := by
  induction as with
  | nil => rfl
  | cons a as ih =>
    obtain ⟨b, hl, hs⟩ := h a List.mem_cons_self
    rw [List.mapM_cons, hs, ih fun x hx => h x (List.mem_cons_of_mem a hx),
      List.filterMap_cons_some hl]
    rfl

def TypeKind.owner : TypeKind → OwnerKind
  | .classKind => .classOwner
  | .interfaceKind => .interfaceOwner

namespace Forest

variable {f : Forest} {id : DeclId} {u : UnitId}

theorem declaration_eq_ok_iff {d : Declaration} :
    f.declaration id = .ok d ↔ f.get? id = some d := by
  unfold declaration
  cases f.get? id <;> simp

theorem unit_eq_ok_iff {unit : CompilationUnit} :
    f.unit u = .ok unit ↔ f.unit? u = some unit := by
  unfold Forest.unit
  cases f.unit? u <;> simp

theorem type?_eq_some_iff {t : TypeDefinition} :
    f.type? id = some t ↔ ∃ o comments, f.get? id = some ⟨.type t, o, comments⟩ := by
  unfold type?
  cases f.get? id with
  | none => simp
  | some d =>
    rcases d with ⟨c, o, k⟩
    cases c <;> simp [Content.type?]

theorem typeDefinition_of_none (h : f.get? id = none) :
    f.typeDefinition id = .error (.unknownDeclaration id.display) := by
  simp [typeDefinition, declaration, h, Except.bind]

theorem typeDefinition_of_not_type {d : Declaration} (h : f.get? id = some d)
    (ht : d.content.type? = none) :
    f.typeDefinition id =
      .error (.illegalOwner (f.describe id) "a member position that requires a type") := by
  simp [typeDefinition, declaration, h, ht, Except.bind]

theorem typeDefinition_eq_ok_iff {t : TypeDefinition} :
    f.typeDefinition id = .ok t ↔ f.type? id = some t := by
  unfold typeDefinition type? declaration
  cases h : f.get? id with
  | none => simp [Except.bind]
  | some d => cases ht : d.content.type? <;> simp [Except.bind, ht]

theorem typeDefinition_eq_error_iff {fault : Fault} :
    f.typeDefinition id = .error fault ↔
      (f.get? id = none ∧ fault = .unknownDeclaration id.display) ∨
      ∃ d, f.get? id = some d ∧ d.content.type? = none ∧
        fault = .illegalOwner (f.describe id) "a member position that requires a type" := by
  cases h : f.get? id with
  | none => simp [typeDefinition_of_none h, eq_comm]
  | some d =>
    cases ht : d.content.type? with
    | none => simp [typeDefinition_of_not_type h ht, ht, eq_comm]
    | some t =>
      have hok : f.typeDefinition id = .ok t := typeDefinition_eq_ok_iff.mpr (by simp [type?, h, ht])
      simp [hok, ht]

theorem ownerKind_unit_eq_ok_iff {k : OwnerKind} :
    f.ownerKind (.unit u) = .ok k ↔ (∃ unit, f.unit? u = some unit) ∧ k = .unitOwner := by
  unfold ownerKind Forest.unit
  cases h : f.unit? u <;> simp [h, Except.map, eq_comm]

theorem ownerKind_type_eq_ok_iff {k : OwnerKind} :
    f.ownerKind (.type id) = .ok k ↔ ∃ t, f.type? id = some t ∧ k = t.kind.owner := by
  unfold ownerKind type? declaration
  cases h : f.get? id with
  | none => simp [h]
  | some d =>
    cases ht : d.content.type? with
    | none => simp [h, ht]
    | some t => cases hk : t.kind <;> simp [h, ht, hk, TypeKind.owner, eq_comm]

end Forest

end DeclForest
