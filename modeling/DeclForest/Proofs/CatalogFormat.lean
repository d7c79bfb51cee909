import DeclForest.Proofs.CatalogDepth
import DeclForest.Proofs.Spelling

/-!
Catalogs through any notation that gives back what stands in an outline. Which notation it is and
what else its reader does are of no account: a catalog is read as it was written, if the reader may
go as deep as the catalog reaches, and refused otherwise.
-/

namespace DeclForest.Catalog

variable {ν : Type} {m : Type → Type} [Monad m] {format : Format ν m} {present : Outline → ν}

/-- A notation that presents outlines as they are. Opening a record or a list takes one of the steps
that are left, so that it fails where none is. -/
structure Presents (format : Format ν m) (present : Outline → ν) : Prop where
  refuse_bind {α β : Type} (f : α → m β) : format.refuse >>= f = format.refuse
  record_zero (keys : List String) (fields : List (String × Outline)) :
    format.record 0 keys (present (.record fields)) = format.refuse
  record_succ (n : Nat) (keys : List String) (fields : List (String × Outline)) :
    (fields.map Prod.fst).Nodup → format.record (n + 1) keys (present (.record fields)) =
      pure (keys.map fun key => (fields.lookup key).map present)
  list_zero (items : List Outline) : format.list 0 (present (.list items)) = format.refuse
  list_succ (n : Nat) (items : List Outline) :
    format.list (n + 1) (present (.list items)) = pure (items.map present)
  text (s : String) : format.text (present (.text s)) = pure s
  word (n : Nat) (s : String) : format.word n (present (.text s)) = pure s
  optional (fields : List (String × Outline)) :
    format.optional (present (.record fields)) = pure (some (present (.record fields)))

namespace Presents

theorem record_type (h : Presents format present) (n : Nat) (t : ExternalType) :
    format.record (n + 1) typeKeys (present t.outline) =
      pure [some (present (.text t.qualifiedName)), some (present (.text t.kind.word)),
        t.superclass.map fun s => present s.outline,
        if t.interfaces = [] then none
          else some (present (.list (t.interfaces.map ExternalType.outline)))] := by
  rcases t with ⟨name, kind, _ | s, _ | ⟨face, faces⟩⟩ <;>
    rw [ExternalType.outline, h.record_succ] <;>
    simp [typeKeys, ExternalType.superclassField, ExternalType.interfacesField, List.lookup_cons,
      ExternalType.outlines_eq_map]

theorem record_member (h : Presents format present) (n : Nat) (member : ExternalMember) :
    format.record (n + 1) memberKeys (present member.outline) =
      pure [some (present member.declaringType.outline), some (present (.text member.name)),
        some (present (.text member.kind.word)),
        some (present (.text member.modifiers.spell))] := by
  rw [ExternalMember.outline, h.record_succ] <;> simp [memberKeys, List.lookup_cons]

theorem record_catalog (h : Presents format present) (n : Nat) (c : Catalog) :
    format.record (n + 1) catalogKeys (present (.record c.fields)) =
      pure [some (present (.list (c.types.map ExternalType.outline))),
        some (present (.list (c.members.map ExternalMember.outline)))] := by
  rw [h.record_succ] <;> simp [catalogKeys, Catalog.fields, List.lookup_cons]

variable [LawfulMonad m]

theorem mapM {α : Type} {P : α → Prop} [DecidablePred P] {outline : α → Outline} {read : ν → m α}
    (h : Presents format present)
    (hread : ∀ a, read (present (outline a)) = if P a then pure a else format.refuse)
    (as : List α) : (as.map fun a => present (outline a)).mapM read =
      if ∀ a ∈ as, P a then pure as else format.refuse := by
  induction as with
  | nil => simp
  | cons a as ih =>
    rw [List.map_cons, List.mapM_cons, hread, ih]
    by_cases ha : P a
    · by_cases has : ∀ x ∈ as, P x
      · have hall : ∀ x ∈ a :: as, P x := List.forall_mem_cons.mpr ⟨ha, has⟩
        rw [if_pos ha, if_pos has, if_pos hall, pure_bind, pure_bind]
      · have hall : ¬∀ x ∈ a :: as, P x := fun h => has (List.forall_mem_cons.mp h).2
        rw [if_pos ha, if_neg has, if_neg hall, pure_bind, h.refuse_bind]
    · have hall : ¬∀ x ∈ a :: as, P x := fun h => ha (List.forall_mem_cons.mp h).1
      rw [if_neg ha, if_neg hall, h.refuse_bind]

section Recorded

variable {n : Nat} {read : ν → m ExternalType}

theorem superclass (h : Presents format present) (superclass : Option ExternalType)
    (hread : ∀ s, read (present s.outline) = if s.depth ≤ n then pure s else format.refuse) :
    (orElse none format.optional (superclass.map fun s => present s.outline) >>=
        (·.mapM read)) =
      if superclassDepth superclass ≤ n then pure superclass else format.refuse := by
  cases superclass with
  | none => simp [orElse, superclassDepth]
  | some s =>
    have hoptional : format.optional (present s.outline) = pure (some (present s.outline)) := by
      cases s
      exact h.optional _
    rw [Option.map_some, orElse, hoptional, pure_bind, superclassDepth, Option.mapM_some, hread]
    by_cases hs : s.depth ≤ n
    · rw [if_pos hs, if_pos hs, map_pure]
    · rw [if_neg hs, if_neg hs, map_eq_pure_bind, h.refuse_bind]

theorem interfaces (h : Presents format present) (faces : List ExternalType)
    (hread : ∀ s, read (present s.outline) = if s.depth ≤ n - 1 then pure s else format.refuse) :
    (orElse [] (format.list n) (if faces = [] then none
        else some (present (.list (faces.map ExternalType.outline)))) >>= (·.mapM read)) =
      if interfacesDepth faces ≤ n then pure faces else format.refuse := by
  cases faces with
  | nil => simp [orElse, interfacesDepth]
  | cons face faces =>
    rw [if_neg (List.cons_ne_nil face faces), orElse]
    cases n with
    | zero =>
      have hdepth : ¬interfacesDepth (face :: faces) ≤ 0 := by
        rw [interfacesDepth]
        omega
      rw [if_neg hdepth, h.list_zero, h.refuse_bind]
    | succ n =>
      have hfaces := h.mapM hread (face :: faces)
      simp only [Nat.add_sub_cancel, ← interfacesDepth_le_iff] at hfaces
      rw [h.list_succ, pure_bind, List.map_map]
      exact hfaces

end Recorded

theorem kindOf_word (h : Presents format present) (n : Nat) (kind : ExternalKind) :
    kindOf format n (present (.text kind.word)) = pure kind := by
  rw [kindOf, h.word, pure_bind, ExternalKind.ofWord?_word, orRefuse]

theorem memberKindOf_word (h : Presents format present) (n : Nat) (kind : MemberKind) :
    memberKindOf format n (present (.text kind.word)) = pure kind := by
  rw [memberKindOf, h.word, pure_bind, MemberKind.ofWord?_word, orRefuse]

theorem modifiersOf_spell (h : Presents format present) (modifiers : Modifiers) :
    modifiersOf format (present (.text modifiers.spell)) = pure modifiers := by
  rw [modifiersOf, h.text, pure_bind, Modifiers.ofSpelling?_spell, orRefuse]

theorem typeWith_outline (h : Presents format present) (n : Nat)
    (superclassOf interfaceOf : ν → m ExternalType) (t : ExternalType) :
    typeWith format n superclassOf interfaceOf (present t.outline) =
      (orElse none format.optional (t.superclass.map fun s => present s.outline) >>=
          (·.mapM superclassOf)) >>= fun superclass =>
        (orElse [] (format.list n) (if t.interfaces = [] then none
            else some (present (.list (t.interfaces.map ExternalType.outline)))) >>=
          (·.mapM interfaceOf)) >>= fun faces =>
            pure ⟨t.qualifiedName, t.kind, superclass, faces⟩ := by
  rw [typeWith, h.record_type, pure_bind]
  simp only [h.text, h.kindOf_word, pure_bind, bind_assoc]

/-- What is written for a type is read as the type, if the reader may go as deep as it reaches. -/
theorem typeOf_outline (h : Presents format present) (n : Nat) (t : ExternalType) :
    typeOf format n (present t.outline) = if t.depth ≤ n then pure t else format.refuse := by
  induction n using Nat.strong_induction_on generalizing t with
  | _ n ih =>
    rcases t with ⟨name, kind, superclass, faces⟩
    cases n with
    | zero =>
      have hdepth : ¬ExternalType.depth ⟨name, kind, superclass, faces⟩ ≤ 0 := by
        rw [ExternalType.depth]
        omega
      rw [if_neg hdepth]
      rfl
    | succ n =>
      have hdepth : ExternalType.depth ⟨name, kind, superclass, faces⟩ ≤ n + 1 ↔
          superclassDepth superclass ≤ n ∧ interfacesDepth faces ≤ n := by
        rw [ExternalType.depth]
        omega
      rw [typeOf_succ, h.typeWith_outline, h.superclass superclass (ih n (by omega)),
        h.interfaces faces (ih (n - 1) (by omega))]
      by_cases hs : superclassDepth superclass ≤ n <;>
        by_cases hf : interfacesDepth faces ≤ n <;> simp [hdepth, hs, hf, h.refuse_bind]

theorem memberOf_outline (h : Presents format present) (n : Nat) (member : ExternalMember) :
    memberOf format n (present member.outline) =
      if member.depth ≤ n then pure member else format.refuse := by
  cases n with
  | zero =>
    have hdepth : ¬member.depth ≤ 0 := by
      unfold ExternalMember.depth
      omega
    rw [if_neg hdepth]
    rfl
  | succ n =>
    have hdepth : member.depth ≤ n + 1 ↔ member.declaringType.depth ≤ n := by
      unfold ExternalMember.depth
      omega
    rw [memberOf, h.record_member, pure_bind]
    simp only [h.typeOf_outline, h.text, h.memberKindOf_word, orElse, h.modifiersOf_spell,
      pure_bind]
    by_cases hd : member.declaringType.depth ≤ n
    · rw [if_pos hd, if_pos (hdepth.mpr hd), pure_bind]
    · rw [if_neg hd, if_neg (mt hdepth.mp hd), h.refuse_bind]

theorem items_outline {α : Type} {P : α → Prop} [DecidablePred P] {outline : α → Outline}
    {read : Nat → ν → m α} {n : Nat} (h : Presents format present)
    (hread : ∀ a, read n (present (outline a)) = if P a then pure a else format.refuse)
    (as : List α) : items format read (n + 1) (present (.list (as.map outline))) =
      if ∀ a ∈ as, P a then pure as else format.refuse := by
  rw [items, h.list_succ, pure_bind, List.map_map]
  exact h.mapM hread as

theorem ofNode_fields (h : Presents format present) (n : Nat) (c : Catalog) :
    ofNode format n (present (.record c.fields)) =
      if c.depth ≤ n then pure c else format.refuse := by
  have hdepth : 2 ≤ c.depth := by
    unfold Catalog.depth
    omega
  match n with
  | 0 => rw [ofNode, h.record_zero, h.refuse_bind, if_neg (by omega)]
  | 1 =>
    rw [ofNode, h.record_catalog, pure_bind, if_neg (by omega)]
    simp only [orElse, items, h.list_zero, h.refuse_bind]
  | n + 2 =>
    have htypes := h.items_outline (h.typeOf_outline n) c.types
    have hmembers := h.items_outline (h.memberOf_outline n) c.members
    rw [ofNode, h.record_catalog, pure_bind]
    simp only [orElse, Nat.add_succ_sub_one, htypes, hmembers]
    by_cases ht : ∀ t ∈ c.types, t.depth ≤ n
    · by_cases hm : ∀ m ∈ c.members, m.depth ≤ n
      · rw [if_pos ht, if_pos hm, if_pos (depth_le_iff.mpr ⟨ht, hm⟩), pure_bind, pure_bind]
      · rw [if_pos ht, if_neg hm, if_neg fun h => hm (depth_le_iff.mp h).2, pure_bind,
          h.refuse_bind]
    · rw [if_neg ht, if_neg fun h => ht (depth_le_iff.mp h).1, h.refuse_bind]

end Presents

end DeclForest.Catalog
