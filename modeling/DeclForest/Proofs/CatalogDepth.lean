import DeclForest.Catalog.Json
import DeclForest.Proofs.JsonText

/-!
How deep a catalog nests, counted over its entries, over its outline and over the brackets of its
text: the three agree.
-/

namespace DeclForest

mutual

/-- How deep the record of a type reaches; a list of interfaces is one step more. -/
def ExternalType.depth : ExternalType → Nat
  | ⟨_, _, superclass, interfaces⟩ =>
    1 + max (superclassDepth superclass) (interfacesDepth interfaces)

def superclassDepth : Option ExternalType → Nat
  | none => 0
  | some t => t.depth

def interfacesDepth : List ExternalType → Nat
  | [] => 0
  | t :: rest => max (1 + t.depth) (interfacesDepth rest)

end

def ExternalMember.depth (m : ExternalMember) : Nat := 1 + m.declaringType.depth

def Catalog.depth (c : Catalog) : Nat :=
  2 + (c.types.map ExternalType.depth ++ c.members.map ExternalMember.depth).foldr max 0

theorem interfacesDepth_le_iff {n : Nat} {faces : List ExternalType} :
    interfacesDepth faces ≤ n + 1 ↔ ∀ face ∈ faces, face.depth ≤ n := by
  induction faces with
  | nil => simp [interfacesDepth]
  | cons face faces ih =>
    have hface : 1 + face.depth ≤ n + 1 ↔ face.depth ≤ n := by omega
    rw [interfacesDepth, Nat.max_le, ih, List.forall_mem_cons, hface]

theorem foldr_max_le_iff {n : Nat} {ns : List Nat} : ns.foldr max 0 ≤ n ↔ ∀ m ∈ ns, m ≤ n := by
  induction ns with
  | nil => simp
  | cons m ns ih => rw [List.foldr_cons, Nat.max_le, ih, List.forall_mem_cons]

theorem Catalog.depth_le_iff {c : Catalog} {n : Nat} : c.depth ≤ n + 2 ↔
    (∀ t ∈ c.types, t.depth ≤ n) ∧ ∀ m ∈ c.members, m.depth ≤ n := by
  have hdepth : c.depth ≤ n + 2 ↔
      (c.types.map ExternalType.depth ++ c.members.map ExternalMember.depth).foldr max 0 ≤ n := by
    unfold Catalog.depth
    omega
  rw [hdepth, foldr_max_le_iff]
  simp only [List.mem_append, List.mem_map]
  constructor
  · intro h
    exact ⟨fun t ht => h _ (.inl ⟨t, ht, rfl⟩), fun m hm => h _ (.inr ⟨m, hm, rfl⟩)⟩
  · rintro ⟨ht, hm⟩ k (⟨t, h, rfl⟩ | ⟨m, h, rfl⟩)
    · exact ht t h
    · exact hm m h

section Outlines

open Json

theorem fieldsDepth_append (fields others : List (String × Outline)) :
    fieldsDepth (fields ++ others) = max (fieldsDepth fields) (fieldsDepth others) := by
  induction fields with
  | nil => simp [fieldsDepth]
  | cons f fields ih =>
    obtain ⟨key, value⟩ := f
    rw [List.cons_append, fieldsDepth, ih, fieldsDepth, Nat.max_assoc]

mutual

theorem depth_outline : (t : ExternalType) → depth t.outline = t.depth
  | ⟨name, kind, superclass, interfaces⟩ => by
    rw [ExternalType.outline, depth, fieldsDepth_append, fieldsDepth_append,
      fieldsDepth_superclassField, fieldsDepth_interfacesField, ExternalType.depth]
    simp [fieldsDepth, depth]

theorem fieldsDepth_superclassField : (superclass : Option ExternalType) →
    fieldsDepth (ExternalType.superclassField superclass) = superclassDepth superclass
  | none => rfl
  | some t => by
    rw [ExternalType.superclassField, fieldsDepth, fieldsDepth, depth_outline, superclassDepth]
    omega

theorem fieldsDepth_interfacesField : (interfaces : List ExternalType) →
    fieldsDepth (ExternalType.interfacesField interfaces) = interfacesDepth interfaces
  | [] => rfl
  | t :: rest => by
    rw [ExternalType.interfacesField, fieldsDepth, fieldsDepth, depth, itemsDepth, depth_outline,
      interfacesDepth, itemsDepth_outlines]
    omega

theorem itemsDepth_outlines : (ts : List ExternalType) →
    itemsDepth (ExternalType.outlines ts) = interfacesDepth ts - 1
  | [] => rfl
  | t :: rest => by
    rw [ExternalType.outlines, itemsDepth, depth_outline, itemsDepth_outlines, interfacesDepth]
    omega

end

theorem depth_outline_member (m : ExternalMember) : depth m.outline = m.depth := by
  simp [ExternalMember.outline, depth, fieldsDepth, depth_outline, ExternalMember.depth]

theorem itemsDepth_map {α : Type} (outline : α → Outline) (entries : List α) :
    itemsDepth (entries.map outline) =
      (entries.map fun e => Json.depth (outline e)).foldr max 0 := by
  induction entries with
  | nil => rfl
  | cons e entries ih => rw [List.map_cons, itemsDepth, ih, List.map_cons, List.foldr_cons]

theorem foldr_max_append (ns ms : List Nat) :
    (ns ++ ms).foldr max 0 = max (ns.foldr max 0) (ms.foldr max 0) := by
  induction ns with
  | nil => simp
  | cons n ns ih => rw [List.cons_append, List.foldr_cons, ih, List.foldr_cons, Nat.max_assoc]

theorem Catalog.depth_fields (c : Catalog) : Json.depth (.record c.fields) = c.depth := by
  have htypes : itemsDepth (c.types.map ExternalType.outline) =
      (c.types.map ExternalType.depth).foldr max 0 := by
    rw [itemsDepth_map]
    simp only [depth_outline]
  have hmembers : itemsDepth (c.members.map ExternalMember.outline) =
      (c.members.map ExternalMember.depth).foldr max 0 := by
    rw [itemsDepth_map]
    simp only [depth_outline_member]
  rw [Json.depth, Catalog.fields, fieldsDepth, fieldsDepth, fieldsDepth, Json.depth, Json.depth,
    htypes, hmembers, Catalog.depth, foldr_max_append]
  omega

/-- The depth of a catalog is the depth of the brackets in its text. -/
theorem Catalog.nesting_toJson (c : Catalog) :
    ∃ tokens, tokens? c.toJson.toList = some tokens ∧ nesting 0 tokens = c.depth := by
  refine ⟨tokensOf (.record c.fields), ?_, ?_⟩
  · rw [toJson, String.toList_ofList, tokens?_write]
  · have h := nesting_tokensOf 0 [] (.record c.fields)
    rw [List.append_nil, depth_fields, nesting] at h
    omega

end Outlines

end DeclForest
