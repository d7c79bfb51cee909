import DeclForest.Proofs.Locality
import DeclForest.Proofs.Sections
import DeclForest.Proofs.Stability

/-!
Qualified names go down the owner links: the name of a nested type is that of the type around it and
its own, the outermost type has the name of its package before it. A name is worked out when it is
asked for, so an import is written with the name that its type has by then, whatever was registered
since the import was made or the type was described for it.
-/

namespace DeclForest

def Content.importLine (name : String) : Content → String
  | .typeImport _ => "import " ++ name ++ ";"
  | .staticImport _ member => "import static " ++ name ++ "." ++ member ++ ";"
  | _ => ""

namespace Forest

variable {f : Forest} {t o p : DeclId} {u : UnitId} {definition : TypeDefinition}

def typeNames (f : Forest) (t : DeclId) : List String :=
  (((f.ancestors t).filterMap f.type?).map TypeDefinition.name).reverse

namespace Invariant

variable (hf : f.Invariant)

include hf

theorem packageName?_of_packageSlot? (h : f.packageSlot? u = some p) :
    ∃ name, f.content? p = some (.package name) ∧ f.packageName? u = some name := by
  obtain ⟨name, hc⟩ := hf.content?_of_packageSlot? h
  obtain ⟨⟨c, owner, comments⟩, hx, rfl⟩ := Option.map_eq_some_iff.mp hc
  have hslot : (f.unit? u).bind CompilationUnit.package = some p := h
  exact ⟨name, hc, by rw [packageName?, hslot, Option.bind_some, hx]⟩

theorem typeNames_of_ownedBy (ht : f.type? t = some definition) (ho : f.OwnedBy t o) :
    f.typeNames t = f.typeNames o ++ [definition.name] := by
  rw [typeNames, hf.ancestors_of_ownedBy ho, List.filterMap_cons_some ht, List.map_cons,
    List.reverse_cons]
  rfl

theorem typeNames_of_not_ownedBy (ht : f.type? t = some definition) (hn : ∀ o, ¬f.OwnedBy t o) :
    f.typeNames t = [definition.name] := by
  simp [typeNames, hf.ancestors_of_not_ownedBy hn, ht]

theorem qualifiedName_eq (ht : f.type? t = some definition) :
    f.qualifiedName t = .ok
      (".".intercalate (((f.enclosingUnit? t).bind f.packageName?).toList ++ f.typeNames t)) :=
  hf.qualifiedName_of_type ht

/-- A nested type and the type around it are in one unit, so only the last name is new. -/
theorem qualifiedName_of_ownedBy (ht : f.type? t = some definition) (ho : f.OwnedBy t o) :
    ∃ outer, f.qualifiedName o = .ok outer ∧
      f.qualifiedName t = .ok (outer ++ "." ++ definition.name) := by
  obtain ⟨around, hat⟩ := hf.exists_type?_of_ownedBy ho
  refine ⟨_, hf.qualifiedName_eq hat, ?_⟩
  have hne : f.typeNames o ≠ [] := by
    have hmem : around.name ∈ f.typeNames o := by
      rw [typeNames, List.mem_reverse]
      exact List.mem_map_of_mem (List.mem_filterMap.mpr ⟨o, f.self_mem_ancestors o, hat⟩)
    exact List.ne_nil_of_mem hmem
  rw [hf.qualifiedName_eq ht, hf.enclosingUnit?_of_ownedBy ho, hf.typeNames_of_ownedBy ht ho,
    ← List.append_assoc, String.intercalate_append_of_ne_nil (by simp [hne]) (by simp)]
  simp

theorem qualifiedName_of_not_ownedBy (ht : f.type? t = some definition)
    (hn : ∀ o, ¬f.OwnedBy t o) :
    f.qualifiedName t = .ok
      (".".intercalate
        (((f.enclosingUnit? t).bind f.packageName?).toList ++ [definition.name])) := by
  rw [hf.qualifiedName_eq ht, hf.typeNames_of_not_ownedBy ht hn]

theorem qualifiedName_of_packaged (ht : f.type? t = some definition)
    (ho : f.owner? t = some (.unit u)) (hp : f.packageSlot? u = some p) :
    ∃ name, f.content? p = some (.package name) ∧
      f.qualifiedName t = .ok (name ++ "." ++ definition.name) := by
  obtain ⟨name, hc, hname⟩ := hf.packageName?_of_packageSlot? hp
  refine ⟨name, hc, ?_⟩
  rw [hf.qualifiedName_of_not_ownedBy ht (by simp [OwnedBy, ho]), hf.enclosingUnit?_of_owner? ho,
    Option.bind_some, hname]
  simp

theorem qualifiedName_of_unpackaged (ht : f.type? t = some definition)
    (ho : f.owner? t = some (.unit u)) (hp : f.packageSlot? u = none) :
    f.qualifiedName t = .ok definition.name := by
  have hslot : (f.unit? u).bind CompilationUnit.package = none := hp
  have hname : f.packageName? u = none := by rw [packageName?, hslot, Option.bind_none]
  rw [hf.qualifiedName_of_not_ownedBy ht (by simp [OwnedBy, ho]), hf.enclosingUnit?_of_owner? ho,
    Option.bind_some, hname]
  simp

theorem qualifiedName_of_detached (ht : f.type? t = some definition) (ho : f.owner? t = none) :
    f.qualifiedName t = .ok definition.name := by
  have hn : ∀ o, ¬f.OwnedBy t o := by simp [OwnedBy, ho]
  have hunit : f.enclosingUnit? t = none := by
    simp [enclosingUnit?, hf.ancestors_of_not_ownedBy hn, ho]
  rw [hf.qualifiedName_of_not_ownedBy ht hn, hunit]
  simp

end Invariant

end Forest

namespace Source

open Forest

variable {f : Forest} {d t : DeclId} {c : Content} {now text : String}

theorem importName_of_importedType? {target : Descriptor}
    (h : (Content.typeImport target).importedType? = some t) :
    importName f target = f.qualifiedName t := by
  cases hr : target.referent <;> simp_all [Content.importedType?, importName]

theorem importText_of_importedType? {target : Descriptor}
    (h : (Content.typeImport target).importedType? = some t) (hn : f.qualifiedName t = .ok now) :
    importText f target = .ok ((Content.typeImport target).importLine now) := by
  rw [importText, importName_of_importedType? h, hn]
  rfl

theorem staticImportText_of_importedType? {target : Descriptor} {member : String}
    (h : (Content.staticImport target member).importedType? = some t)
    (hn : f.qualifiedName t = .ok now) :
    staticImportText f target member =
      .ok ((Content.staticImport target member).importLine now) := by
  rw [staticImportText, importName_of_importedType? h, hn]
  rfl

theorem endsIn_importLine (hf : f.Invariant) (hc : f.content? d = some c)
    (ht : c.importedType? = some t) (hn : f.qualifiedName t = .ok now) :
    EndsIn f d (c.importLine now) := by
  cases c with
  | typeImport target =>
    have hl : f.nestingLevel d = 0 :=
      hf.nestingLevel_of_not_ownedBy fun _ => hf.not_ownedBy_of_imports (.inl hc)
    exact endsIn_import hf hl hc (importText_of_importedType? ht hn)
  | staticImport target member =>
    have hl : f.nestingLevel d = 0 :=
      hf.nestingLevel_of_not_ownedBy fun _ => hf.not_ownedBy_of_imports (.inr ⟨member, hc⟩)
    exact endsIn_staticImport hf hl hc (staticImportText_of_importedType? ht hn)
  | _ => simp [Content.importedType?] at ht

/-- All of an import lasts. -/
theorem lasting_eq_iff_of_importedType? (h : c.importedType? = some t) {c' : Content} :
    c'.lasting = c ↔ c' = c := by
  cases c with
  | typeImport target => cases c' <;> simp [Content.lasting]
  | staticImport target member => cases c' <;> simp [Content.lasting]
  | _ => simp [Content.importedType?] at h

theorem content?_after (hc : f.content? d = some c) (ht : c.importedType? = some t)
    (ops : List Operation) : (f.after ops).content? d = some c := by
  have hl : f.lasting? d = some c := by
    rw [lasting?, hc, Option.map_some, (lasting_eq_iff_of_importedType? ht).mpr rfl]
  obtain ⟨x, hx, hxc⟩ := exists_get?_of_lasting? (lasting?_after ops hl)
  rw [content?_of_get? hx, (lasting_eq_iff_of_importedType? ht).mp hxc]

/-- If the declaration imports a type of the forest, the line has the present name of that type. -/
def IsPresent (f : Forest) (d : DeclId) (line : String) : Prop :=
  ∀ c t now, f.content? d = some c → c.importedType? = some t → f.qualifiedName t = .ok now →
    line = c.importLine now

structure NamesByOwners (f : Forest) : Prop where
  nested : ∀ t definition o, f.type? t = some definition → f.owner? t = some (.type o) →
    ∃ outer, f.qualifiedName o = .ok outer ∧
      f.qualifiedName t = .ok (outer ++ "." ++ definition.name)
  packaged : ∀ t definition u p, f.type? t = some definition → f.owner? t = some (.unit u) →
    f.packageSlot? u = some p → ∃ name, f.content? p = some (.package name) ∧
      f.qualifiedName t = .ok (name ++ "." ++ definition.name)
  unpackaged : ∀ t definition u, f.type? t = some definition → f.owner? t = some (.unit u) →
    f.packageSlot? u = none → f.qualifiedName t = .ok definition.name
  detached : ∀ t definition, f.type? t = some definition → f.owner? t = none →
    f.qualifiedName t = .ok definition.name
  refused : ∀ d, f.type? d = none → ∃ fault, f.qualifiedName d = .error fault
  /-- An import on its own is written with the name that its type has now. -/
  alone : ∀ d c t now, f.content? d = some c → c.importedType? = some t →
    f.qualifiedName t = .ok now → EndsIn f d (c.importLine now)
  /-- In the text of a unit, so are all its imports. -/
  inUnit : ∀ u unit s, f.unit? u = some unit → generate f u = .ok s →
    ∃ imports statics types, List.Forall₂ (IsPresent f) unit.imports imports ∧
      List.Forall₂ (IsPresent f) unit.staticImports statics ∧
      List.Forall₂ (fun t text => renderDeclaration f t = .ok text) unit.types types ∧
      s = headText (f.packageName? u) imports statics ++ "\n" ++ "\n".intercalate types

/-- What is known of names and imports holds at all later times. -/
structure KeepsNaming (f : Forest) : Prop where
  laws : ∀ ops, NamesByOwners (f.after ops)
  imports : ∀ d c t ops, f.content? d = some c → c.importedType? = some t →
    (f.after ops).content? d = some c
  /-- However early a type was described, an import of it is written with its name of then. -/
  described : ∀ t target ops d c, ((definedType t).run f).1 = .ok target →
    (f.after ops).content? d = some c →
    (c = .typeImport target ∨ ∃ member, c = .staticImport target member) →
    ∃ now, (f.after ops).qualifiedName t = .ok now ∧ EndsIn (f.after ops) d (c.importLine now)

theorem namesByOwners (hf : f.Invariant) : NamesByOwners f := by
  constructor
  · exact fun t definition o ht ho => hf.qualifiedName_of_ownedBy ht ho
  · exact fun t definition u p ht ho hp => hf.qualifiedName_of_packaged ht ho hp
  · exact fun t definition u ht ho hp => hf.qualifiedName_of_unpackaged ht ho hp
  · exact fun t definition ht ho => hf.qualifiedName_of_detached ht ho
  · intro d hd
    cases ht : f.typeDefinition d with
    | ok definition => simp [typeDefinition_eq_ok_iff.mp ht] at hd
    | error fault => exact ⟨fault, qualifiedName_of_fault ht⟩
  · exact fun d c t now hc ht hn => endsIn_importLine hf hc ht hn
  · intro u unit s hu hs
    obtain ⟨imports, statics, types, htexts, rfl⟩ := generate_text hf hu hs
    refine ⟨imports, statics, types, htexts.imports.imp ?_, htexts.statics.imp ?_, htexts.types,
      rfl⟩
    · rintro d line ⟨target, hc, hline⟩ c t now hc' ht hn
      obtain rfl := Option.some.inj (hc.symm.trans hc')
      exact Except.ok.inj (hline.symm.trans (importText_of_importedType? ht hn))
    · rintro d line ⟨target, member, hc, hline⟩ c t now hc' ht hn
      obtain rfl := Option.some.inj (hc.symm.trans hc')
      exact Except.ok.inj (hline.symm.trans (staticImportText_of_importedType? ht hn))

/-- An import lasts, and a type stays a type, whatever is done. -/
theorem reachable_keepsNaming (h : f.Reachable) : KeepsNaming f := by
  constructor
  · exact fun ops => namesByOwners (reachable_invariant (h.after ops))
  · exact fun d c t ops hc ht => content?_after hc ht ops
  · intro t target ops d c hissued hc hi
    obtain ⟨definition, ht, rfl⟩ := definedType_eq_ok hissued
    have hlater : (f.after ops).Invariant := reachable_invariant (h.after ops)
    obtain ⟨later, hl, -, -⟩ :=
      lasting?_eq_type_iff.mp (lasting?_after ops (lasting?_eq_type_iff.mpr ⟨_, ht, rfl, rfl⟩))
    have hnow := hlater.qualifiedName_eq hl
    have himported : c.importedType? = some t := by
      rcases hi with rfl | ⟨member, rfl⟩ <;> simp [Content.importedType?]
    exact ⟨_, hnow, endsIn_importLine hlater hc himported hnow⟩

def early : Forest := (empty 0).after
  [.newUnit, .declare (.type (.ofName .classKind "Outer")),
   .declare (.type (.ofName .classKind "Inner")), .definedType ⟨1⟩,
   .importType ⟨0⟩ ⟨0, .defined ⟨1⟩ "Inner" .classKind⟩]

def earlyRegistrations : List Operation :=
  [.add ⟨0⟩ ⟨1⟩, .setPackage ⟨0⟩ "a", .addToUnit ⟨0⟩ ⟨0⟩, .setPackage ⟨0⟩ "b"]

/-- Alone and in the text of its unit, the import is written with the name its type has by then. -/
theorem early_keepsNaming : early.Reachable ∧ KeepsNaming early ∧
    renderDeclaration early ⟨2⟩ = .ok "import Inner;\n" ∧
    generate early ⟨0⟩ = .ok "import Inner;\n\n\n" ∧
    renderDeclaration (early.after earlyRegistrations) ⟨2⟩ = .ok "import b.Outer.Inner;\n" ∧
    generate (early.after earlyRegistrations) ⟨0⟩ = .ok ("\n".intercalate
      ["package b;", "", "import b.Outer.Inner;", "", "", r"class Outer {",
        "\t" ++ r"class Inner {", "\t" ++ r"}", r"}", ""]) :=
  ⟨⟨0, _, rfl⟩, reachable_keepsNaming ⟨0, _, rfl⟩, by decide +kernel, by decide +kernel,
    by decide +kernel, by decide +kernel⟩

end Source

end DeclForest
