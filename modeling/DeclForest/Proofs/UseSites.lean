import DeclForest.Proofs.Naming
import Mathlib.Data.List.DropRight

/-!
Names at use sites. A type is used under its simple name and imported under its whole name, and the
one is always the end of the other: nothing stands before it there, or something that ends in a dot.
For an external type both are cut and dotted from the qualified name, each in its own order; for a
type of the forest the simple name is kept with the descriptor and the whole name is put together
from the owners when it is written.
-/

namespace DeclForest

namespace Text

variable {name : List Char}

def DottedSuffix (name whole : String) : Prop :=
  ∃ front, whole = front ++ name ∧ (front = "" ∨ ∃ outer, front = outer ++ ".")

def qualifier (name : List Char) : List Char := name.rdropWhile (· ≠ '.')

theorem qualifier_append_lastSegment (name : List Char) :
    qualifier name ++ lastSegment name = name := by
  have h := List.rdropWhile_append_rtakeWhile (p := fun c => decide (c ≠ '.')) (l := name)
  simpa [qualifier, lastSegment, List.rtakeWhile] using h

theorem qualifier_eq_nil_iff : qualifier name = [] ↔ '.' ∉ name := by
  rw [qualifier, List.rdropWhile_eq_nil_iff]
  constructor
  · intro h hdot
    simpa using h '.' hdot
  · intro h c hc
    have hne : c ≠ '.' := fun hdot => h (hdot ▸ hc)
    simpa using hne

theorem exists_outer_of_qualifier (h : qualifier name ≠ []) :
    ∃ outer, qualifier name = outer ++ ['.'] := by
  have hdot : (qualifier name).getLast h = '.' := by
    by_contra hne
    exact List.rdropWhile_last_not _ name h (decide_eq_true hne)
  refine ⟨(qualifier name).dropLast, ?_⟩
  rw [← hdot]
  exact (List.dropLast_append_getLast h).symm

@[simp] theorem dotted_append (a b : List Char) : dotted (a ++ b) = dotted a ++ dotted b := by
  simp [dotted]

theorem byteLength_dotted (name : List Char) : byteLength (dotted name) = byteLength name := by
  induction name with
  | nil => rfl
  | cons c name ih =>
    have hc : (if c = '$' then '.' else c).utf8Size = c.utf8Size := by
      split
      · rename_i h
        subst h
        rfl
      · rfl
    show (if c = '$' then '.' else c).utf8Size + byteLength (dotted name) = _
    rw [hc, ih, byteLength]

theorem utf8ByteSize_ofList (s : List Char) : (String.ofList s).utf8ByteSize = byteLength s := by
  induction s with
  | nil => rfl
  | cons c s ih =>
    have hcons : String.ofList (c :: s) = String.singleton c ++ String.ofList s := by
      rw [String.singleton_eq_ofList, ← String.ofList_append]
      rfl
    rw [hcons, String.utf8ByteSize_append, String.utf8ByteSize_singleton, ih, byteLength]

/-- Cutting before dotting is dotting before cutting, if the cut is made where the name has it. -/
theorem sourceName_eq_append (name : String) :
    sourceName name = String.ofList (dotted (qualifier name.toList)) ++ simpleName name := by
  rw [sourceName, simpleName, ← String.ofList_append, ← dotted_append,
    qualifier_append_lastSegment]

theorem simpleName_dottedSuffix (name : String) :
    DottedSuffix (simpleName name) (sourceName name) := by
  refine ⟨_, sourceName_eq_append name, ?_⟩
  by_cases h : qualifier name.toList = []
  · left
    rw [h]
    rfl
  · right
    obtain ⟨outer, houter⟩ := exists_outer_of_qualifier h
    refine ⟨String.ofList (dotted outer), ?_⟩
    rw [houter, dotted_append, String.ofList_append]
    rfl

theorem simpleName_eq_sourceName_iff (name : String) :
    simpleName name = sourceName name ↔ '.' ∉ name.toList := by
  rw [← qualifier_eq_nil_iff, sourceName_eq_append]
  constructor
  · intro h
    have hlength := congrArg String.length h
    rw [String.length_append, String.length_ofList, length_dotted] at hlength
    exact List.length_eq_zero_iff.mp (by omega)
  · intro h
    rw [h]
    exact String.empty_append.symm

/-- The names that are made from a qualified name: the imported one and the one at use sites. -/
structure MadeFrom (qualified whole simple : String) : Prop where
  suffix : DottedSuffix simple whole
  no_dollar : '$' ∉ whole.toList ∧ '$' ∉ simple.toList
  length : whole.length = qualified.length
  bytes : whole.utf8ByteSize = qualified.utf8ByteSize
  whole_iff : simple = whole ↔ '.' ∉ qualified.toList

theorem madeFrom_names (name : String) : MadeFrom name (sourceName name) (simpleName name) where
  suffix := simpleName_dottedSuffix name
  no_dollar := by
    simp only [sourceName, simpleName, String.toList_ofList]
    exact ⟨dollar_not_mem_dotted _, dollar_not_mem_dotted _⟩
  length := by
    rw [sourceName, String.length_ofList, length_dotted]
    exact String.length_toList
  bytes := by
    rw [sourceName, utf8ByteSize_ofList, byteLength_dotted, ← utf8ByteSize_ofList,
      String.ofList_toList]
  whole_iff := simpleName_eq_sourceName_iff name

end Text

namespace Forest

variable {f : Forest} {t : DeclId} {definition : TypeDefinition}

/-- The name of a type is the last part of its qualified name. -/
theorem Invariant.dottedSuffix_qualifiedName (hf : f.Invariant) (ht : f.type? t = some definition) :
    ∃ whole, f.qualifiedName t = .ok whole ∧ Text.DottedSuffix definition.name whole := by
  have hempty : "" ++ definition.name = definition.name := String.empty_append
  cases ho : f.owner? t with
  | none => exact ⟨_, hf.qualifiedName_of_detached ht ho, "", hempty.symm, .inl rfl⟩
  | some o =>
    cases o with
    | type outer =>
      obtain ⟨outer, -, hname⟩ := hf.qualifiedName_of_ownedBy ht ho
      exact ⟨_, hname, _, rfl, .inr ⟨outer, rfl⟩⟩
    | unit u =>
      cases hp : f.packageSlot? u with
      | none => exact ⟨_, hf.qualifiedName_of_unpackaged ht ho hp, "", hempty.symm, .inl rfl⟩
      | some p =>
        obtain ⟨package, -, hname⟩ := hf.qualifiedName_of_packaged ht ho hp
        exact ⟨_, hname, _, rfl, .inr ⟨package, rfl⟩⟩

end Forest

namespace Source

open Forest Text

inductive Importable (f : Forest) : Descriptor → Prop where
  | external (issuer : Nat) (t : ExternalType) : Importable f ⟨issuer, .external t⟩
  | defined (issuer : Nat) (kind : TypeKind) {t : DeclId} {definition : TypeDefinition} :
      f.type? t = some definition → Importable f ⟨issuer, .defined t definition.name kind⟩

variable {f : Forest} {d t : DeclId} {target : Descriptor}

theorem exists_importName (hf : f.Invariant) (h : Importable f target) :
    ∃ whole, importName f target = .ok whole ∧ DottedSuffix target.simpleName whole := by
  cases h with
  | external issuer t => exact ⟨t.sourceName, rfl, simpleName_dottedSuffix t.qualifiedName⟩
  | defined issuer kind ht => exact hf.dottedSuffix_qualifiedName ht

/-- A type keeps its name, so that its descriptor stays importable. -/
theorem importable_after (ops : List Operation)
    (h : ((definedType t).run f).1 = .ok target) : Importable (f.after ops) target := by
  obtain ⟨definition, ht, rfl⟩ := definedType_eq_ok h
  have hlasting : f.lasting? t = some (.type (.ofName definition.kind definition.name)) :=
    lasting?_eq_type_iff.mpr ⟨definition, ht, rfl, rfl⟩
  obtain ⟨later, hlater, -, hname⟩ := lasting?_eq_type_iff.mp (lasting?_after ops hlasting)
  rw [← hname]
  exact .defined _ definition.kind hlater

theorem endsIn_importLine_of_importName (hf : f.Invariant) {c : Content} {whole : String}
    (hc : f.content? d = some c)
    (hi : c = .typeImport target ∨ ∃ member, c = .staticImport target member)
    (hn : importName f target = .ok whole) : EndsIn f d (c.importLine whole) := by
  have himports : Imports f d target := by
    rcases hi with rfl | ⟨member, rfl⟩
    · exact .inl hc
    · exact .inr ⟨member, hc⟩
  have hl : f.nestingLevel d = 0 :=
    hf.nestingLevel_of_not_ownedBy fun _ => hf.not_ownedBy_of_imports himports
  rcases hi with rfl | ⟨member, rfl⟩
  · apply endsIn_import hf hl hc
    rw [importText, hn]
    rfl
  · apply endsIn_staticImport hf hl hc
    rw [staticImportText, hn]
    rfl

structure ImportsBySuffix (f : Forest) : Prop where
  suffix : ∀ target, Importable f target → ∃ whole, importName f target = .ok whole ∧
    DottedSuffix target.simpleName whole
  external : ∀ target t, target.referent = .external t → ∃ whole,
    importName f target = .ok whole ∧ MadeFrom t.qualifiedName whole target.simpleName
  describable : ∀ t definition, f.type? t = some definition → ∃ target,
    ((definedType t).run f).1 = .ok target ∧ target.simpleName = definition.name
  /-- However early a type was described, and whatever happened to it and around it since. -/
  described : ∀ t target ops, ((definedType t).run f).1 = .ok target → ∃ whole,
    importName (f.after ops) target = .ok whole ∧ DottedSuffix target.simpleName whole
  /-- The whole name is what stands in source text. -/
  written : ∀ d c target, f.content? d = some c →
    (c = .typeImport target ∨ ∃ member, c = .staticImport target member) →
    Importable f target → ∃ whole, DottedSuffix target.simpleName whole ∧
      EndsIn f d (c.importLine whole)

theorem reachable_importsBySuffix (h : f.Reachable) : ImportsBySuffix f where
  suffix _ := exists_importName (reachable_invariant h)
  external := by
    rintro ⟨issuer, _⟩ t rfl
    exact ⟨t.sourceName, rfl, madeFrom_names t.qualifiedName⟩
  describable t definition ht := ⟨_, congrArg Prod.fst (run_definedType ht), rfl⟩
  described _ _ ops hissued :=
    exists_importName (reachable_invariant (h.after ops)) (importable_after ops hissued)
  written d c target hc hi himportable := by
    obtain ⟨whole, hname, hsuffix⟩ := exists_importName (reachable_invariant h) himportable
    exact ⟨whole, hsuffix, endsIn_importLine_of_importName (reachable_invariant h) hc hi hname⟩

/-- A class in a class in a package, and a type from outside that is nested twice. -/
theorem early_importsBySuffix :
    (early.after earlyRegistrations).Reachable ∧
    ImportsBySuffix (early.after earlyRegistrations) ∧
    importName (early.after earlyRegistrations) ⟨0, .defined ⟨1⟩ "Inner" .classKind⟩ =
      .ok "b.Outer.Inner" ∧
    importName (early.after earlyRegistrations)
      ⟨0, .external ⟨"a.b$c.D$E$", .classType, none, []⟩⟩ = .ok "a.b.c.D.E." ∧
    Descriptor.simpleName ⟨0, .external ⟨"a.b$c.D$E$", .classType, none, []⟩⟩ = "D.E." := by
  have hreach : (early.after earlyRegistrations).Reachable :=
    Reachable.after ⟨0, _, rfl⟩ earlyRegistrations
  exact ⟨hreach, reachable_importsBySuffix hreach, by decide +kernel, by decide +kernel,
    by decide +kernel⟩

end Source

end DeclForest
