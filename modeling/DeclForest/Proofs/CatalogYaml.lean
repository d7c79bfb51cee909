import DeclForest.Proofs.CatalogFormat
import DeclForest.Proofs.YamlNodes

/-!
Catalogs written as YAML and read again. Whatever the names in a catalog look like, as long as they
are printable, what is written for it is read back as it was, down to the depth that the reader
allows.
-/

namespace DeclForest

namespace Yaml

namespace Document

variable (d : Document)

theorem follow_nodeOf (o : Outline) : d.follow (nodeOf o) = pure (nodeOf o) := by
  cases o <;> rw [nodeOf] <;> rfl

theorem text_nodeOf (s : String) : d.text (nodeOf (.text s)) = pure s := by
  rw [text, follow_nodeOf, pure_bind, nodeOf]

theorem known_fieldNodes (keys : List String) (fields : List (String × Outline)) :
    d.known keys (fieldNodes fields) =
      pure ((fields.filter fun f => f.1 ∈ keys).map fun f => (f.1, nodeOf f.2)) := by
  induction fields with
  | nil => rfl
  | cons f fields ih =>
    obtain ⟨key, value⟩ := f
    have hkey : d.text (.scalar none none true key) = pure key := rfl
    rw [fieldNodes, known, hkey, pure_bind, ih, pure_bind]
    by_cases h : key ∈ keys <;> simp [h]

theorem lookup_known {keys : List String} {key : String} (hkey : key ∈ keys)
    (fields : List (String × Outline)) :
    ((fields.filter fun f => f.1 ∈ keys).map fun f => (f.1, nodeOf (α := Nat) f.2)).lookup key =
      (fields.lookup key).map nodeOf := by
  induction fields with
  | nil => rfl
  | cons f fields ih =>
    obtain ⟨other, value⟩ := f
    by_cases h : other ∈ keys
    · cases heq : key == other <;> simp [h, List.lookup_cons, heq, ih]
    · have hne : (key == other) = false := beq_false_of_ne fun heq => h (heq ▸ hkey)
      simpa [h, List.lookup_cons, hne] using ih

theorem itemNodes_eq_map {α : Type} (items : List Outline) :
    itemNodes (α := α) items = items.map nodeOf := by
  induction items with
  | nil => rfl
  | cons item items ih => rw [itemNodes, ih, List.map_cons]

/-- The nodes of an outline present it. -/
theorem presents : Catalog.Presents d.format (nodeOf (α := Nat)) where
  refuse_bind _ := rfl
  record_zero keys fields := by
    show d.record 0 keys _ = _
    rw [record, follow_nodeOf, pure_bind, nodeOf]
    rfl
  record_succ n keys fields hfields := by
    show d.record (n + 1) keys _ = _
    have hfound : (((fields.filter fun f => f.1 ∈ keys).map fun f =>
        (f.1, nodeOf (α := Nat) f.2)).map Prod.fst).Nodup := by
      rw [List.map_map]
      exact hfields.sublist (List.filter_sublist.map Prod.fst)
    rw [record, follow_nodeOf, pure_bind, nodeOf]
    simp only [Nat.add_one_ne_zero, if_false, known_fieldNodes, pure_bind, hfound, if_true]
    refine congrArg pure (List.map_congr_left fun key hkey => lookup_known hkey fields)
  list_zero items := by
    show d.list 0 _ = _
    rw [list, follow_nodeOf, pure_bind, nodeOf]
    rfl
  list_succ n items := by
    show d.list (n + 1) _ = _
    rw [list, follow_nodeOf, pure_bind, nodeOf, itemNodes_eq_map]
    rfl
  text := d.text_nodeOf
  word n s := by
    show d.word _ = _
    rw [word, follow_nodeOf, pure_bind, nodeOf]
    rfl
  optional fields := by
    show d.optional _ = _
    rw [optional, follow_nodeOf, pure_bind, nodeOf]

end Document

theorem areFields_append {fields others : List (String × Outline)} :
    AreFields (fields ++ others) ↔ AreFields fields ∧ AreFields others := by
  induction fields with
  | nil => simp [AreFields]
  | cons field fields ih =>
    obtain ⟨key, value⟩ := field
    rw [List.cons_append, AreFields, ih, AreFields, and_assoc, and_assoc]

theorem areItems_map {α : Type} {outline : α → Outline} {as : List α}
    (h : ∀ a ∈ as, (∃ fields, outline a = .record fields) ∧ IsBlock (outline a)) :
    AreItems (as.map outline) := by
  induction as with
  | nil => trivial
  | cons a as ih =>
    obtain ⟨⟨hrecord, hblock⟩, has⟩ := List.forall_mem_cons.mp h
    exact ⟨hrecord, hblock, ih has⟩

/-- All keys of catalogs are plain words. -/
theorem isKey_of_mem {key : String} (h : key ∈ typeKeys ++ memberKeys ++ catalogKeys) :
    IsKey key.toList := by
  have hall : ((typeKeys ++ memberKeys ++ catalogKeys).all fun key => !key.toList.isEmpty &&
      key.toList.all isKeyChar && key.toList.length ≤ 1024) = true := by decide
  have hkey := List.all_eq_true.mp hall key h
  simp only [Bool.and_eq_true, Bool.not_eq_true', List.isEmpty_eq_false_iff, List.all_eq_true,
    decide_eq_true_eq] at hkey
  exact ⟨hkey.1.1, hkey.1.2, hkey.2⟩

end Yaml

open Yaml (isAscii)

theorem ExternalKind.isAscii_word (kind : ExternalKind) : kind.word.toList.all isAscii = true := by
  cases kind <;> decide

theorem MemberKind.isAscii_word (kind : MemberKind) : kind.word.toList.all isAscii = true := by
  cases kind <;> decide

namespace Modifiers

theorem isAscii_parts {m : Modifiers} {part : String} (h : part ∈ m.parts) :
    part.toList.all isAscii = true := by
  rcases List.mem_append.mp h with hp | hp
  · obtain ⟨flag, -, rfl⟩ := List.mem_map.mp hp
    cases flag <;> decide
  · split at hp
    · simp at hp
    · have hdigit : ∀ d : Fin 16, isAscii (Nat.digitChar d) = true := by decide
      have hdigits : (Nat.toDigits 16 m.unknown.toNat).all isAscii = true := by
        refine List.all_eq_true.mpr fun c hc => ?_
        obtain ⟨d, hd, rfl⟩ := Text.exists_digitChar_of_mem hc
        exact hdigit ⟨d, hd⟩
      rw [List.mem_singleton.mp hp, toList_number, List.all_cons, List.all_cons, hdigits]
      rfl

theorem isAscii_spell (m : Modifiers) : m.spell.toList.all isAscii = true := by
  have hparts : ∀ parts : List String, (∀ part ∈ parts, part.toList.all isAscii = true) →
      (" | ".intercalate parts).toList.all isAscii = true := by
    intro parts hparts
    induction parts with
    | nil => rfl
    | cons part parts ih =>
      obtain ⟨hpart, hparts⟩ := List.forall_mem_cons.mp hparts
      cases parts with
      | nil => simpa using hpart
      | cons next parts =>
        rw [String.intercalate_cons_cons, String.toList_append, String.toList_append,
          List.all_append, List.all_append, hpart, ih hparts]
        rfl
  exact hparts m.parts fun part => isAscii_parts

end Modifiers

mutual

def ExternalType.isPrintable : ExternalType → Bool
  | ⟨name, _, superclass, interfaces⟩ =>
    name.toList.all isAscii && superclassPrintable superclass && interfacesPrintable interfaces

def superclassPrintable : Option ExternalType → Bool
  | none => true
  | some t => t.isPrintable

def interfacesPrintable : List ExternalType → Bool
  | [] => true
  | t :: rest => t.isPrintable && interfacesPrintable rest

end

def ExternalMember.isPrintable (m : ExternalMember) : Bool :=
  m.declaringType.isPrintable && m.name.toList.all isAscii

def Catalog.isPrintable (c : Catalog) : Bool :=
  c.types.all ExternalType.isPrintable && c.members.all ExternalMember.isPrintable

section Outlines

open Yaml

theorem ExternalType.exists_outline (t : ExternalType) : ∃ fields, t.outline = .record fields := by
  cases t
  exact ⟨_, by rw [outline]⟩

mutual

theorem isBlock_outline : (t : ExternalType) → t.isPrintable = true → IsBlock t.outline
  | ⟨name, kind, superclass, interfaces⟩, h => by
    rw [ExternalType.isPrintable, Bool.and_eq_true, Bool.and_eq_true] at h
    obtain ⟨⟨hname, hsuper⟩, hfaces⟩ := h
    rw [ExternalType.outline, IsBlock, areFields_append, areFields_append]
    refine ⟨by simp, ⟨⟨isKey_of_mem (by decide), List.all_eq_true.mp hname,
      isKey_of_mem (by decide), List.all_eq_true.mp kind.isAscii_word, trivial⟩,
      areFields_superclass superclass hsuper⟩, areFields_interfaces interfaces hfaces⟩

theorem areFields_superclass : (superclass : Option ExternalType) →
    superclassPrintable superclass = true → AreFields (ExternalType.superclassField superclass)
  | none, _ => trivial
  | some t, h => ⟨isKey_of_mem (by decide), isBlock_outline t h, trivial⟩

theorem areFields_interfaces : (interfaces : List ExternalType) →
    interfacesPrintable interfaces = true → AreFields (ExternalType.interfacesField interfaces)
  | [], _ => trivial
  | t :: rest, h => by
    rw [interfacesPrintable, Bool.and_eq_true] at h
    exact ⟨isKey_of_mem (by decide),
      ⟨t.exists_outline, isBlock_outline t h.1, areItems_outlines rest h.2⟩, trivial⟩

theorem areItems_outlines : (ts : List ExternalType) → interfacesPrintable ts = true →
    AreItems (ExternalType.outlines ts)
  | [], _ => trivial
  | t :: rest, h => by
    rw [interfacesPrintable, Bool.and_eq_true] at h
    exact ⟨t.exists_outline, isBlock_outline t h.1, areItems_outlines rest h.2⟩

end

theorem isBlock_member {m : ExternalMember} (h : m.isPrintable = true) : IsBlock m.outline := by
  obtain ⟨hdeclaring, hname⟩ := Bool.and_eq_true_iff.mp h
  exact ⟨List.cons_ne_nil _ _, isKey_of_mem (by decide), isBlock_outline m.declaringType hdeclaring,
    isKey_of_mem (by decide), List.all_eq_true.mp hname, isKey_of_mem (by decide),
    List.all_eq_true.mp m.kind.isAscii_word, isKey_of_mem (by decide),
    List.all_eq_true.mp m.modifiers.isAscii_spell, trivial⟩

theorem areFields_catalog {c : Catalog} (h : c.isPrintable = true) : AreFields c.fields := by
  obtain ⟨htypes, hmembers⟩ := Bool.and_eq_true_iff.mp h
  exact ⟨isKey_of_mem (by decide),
    areItems_map fun t ht =>
      ⟨t.exists_outline, isBlock_outline t (List.all_eq_true.mp htypes t ht)⟩,
    isKey_of_mem (by decide),
    areItems_map fun m hm => ⟨⟨_, rfl⟩, isBlock_member (List.all_eq_true.mp hmembers m hm)⟩,
    trivial⟩

end Outlines

namespace Catalog

/-- YAML loses nothing of a catalog whose names are printable, whatever they look like, and the
reader goes down to its limit in what is written. -/
theorem ofYaml_toYaml {c : Catalog} (h : c.isPrintable = true) : ofYaml c.toYaml =
    if c.depth ≤ yamlDepth then .ok c
    else .error (.catalog "the text is not a catalog in YAML") := by
  have hne : c.fields ≠ [] := List.cons_ne_nil _ _
  have hread : ∀ d : Yaml.Document,
      (ofNode d.format yamlDepth (Yaml.nodeOf (.record c.fields))).run' 0 =
        if c.depth ≤ yamlDepth then some c else none := by
    intro d
    rw [d.presents.ofNode_fields]
    split <;> rfl
  rw [ofYaml, toYaml, Yaml.Document.ofText?_write hne (areFields_catalog h),
    Option.bind_some]
  simp only [Yaml.Document.ofNode, hread]
  by_cases hdepth : c.depth ≤ yamlDepth
  · rw [if_pos hdepth, if_pos hdepth]
  · rw [if_neg hdepth, if_neg hdepth]

/-- Names that would be read as something else, or as more than one thing, if they were written as
they are. -/
def oddNames : Catalog :=
  ⟨[⟨"", .classType, some ⟨"null", .enumType, none, []⟩, [⟨"- a", .interfaceType, none, []⟩,
      ⟨"a: b", .annotationType, some ⟨"0x1F", .classType, none, []⟩, []⟩]⟩,
    ⟨r" it's [{ ", .primitiveType, none, []⟩],
    [⟨⟨"~", .classType, none, [⟨"!t", .interfaceType, none, []⟩]⟩, "&a # c", .field,
        .ofBits 0xFFFF⟩,
      ⟨⟨"\"|\\", .enumType, none, []⟩, "- ", .method, .empty⟩]⟩

theorem oddNames_ofYaml : oddNames.isPrintable = true ∧ oddNames.depth = 6 ∧
    ofYaml oddNames.toYaml = .ok oddNames := by
  have hdepth : oddNames.depth = 6 := by decide
  have hprintable : oddNames.isPrintable = true := by decide
  refine ⟨hprintable, hdepth, ?_⟩
  rw [ofYaml_toYaml hprintable, if_pos (by rw [hdepth]; decide)]

end Catalog

end DeclForest
