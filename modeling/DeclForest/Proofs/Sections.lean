import DeclForest.Proofs.Composition
import Mathlib.Data.List.Forall2

/-!
What a unit begins with, against the texts that its package and its imports have on their own. A
unit writes each of them as one line without its comments. Rendered on its own, the same declaration
is written as that line behind its comments, so the two ways agree on a section exactly if none of
its declarations has any. They always agree on what cannot be written.
-/

namespace DeclForest.Source

open Forest

variable {f : Forest} {d : DeclId} {ids : List DeclId} {texts : List String}

section Text

theorem Line.length_toText_pos (l : Line) : 0 < l.toText.length := by
  rw [toText, String.length_append]
  exact Nat.lt_add_left _ (by decide)

theorem length_joined_eq_zero_iff {ls : List Line} : (joined ls).length = 0 ↔ ls = [] := by
  cases ls with
  | nil => simp
  | cons l ls =>
    have hl := l.length_toText_pos
    simp only [joined_cons, String.length_append, reduceCtorEq, iff_false]
    omega

theorem commentLines_eq_nil_iff (level : Nat) {c : Comments} :
    commentLines level c = [] ↔ c = .none := by
  rcases c with ⟨doc, block, lines⟩
  cases doc <;> cases block <;> simp [commentLines, commentBlock, Comments.none]

end Text

def EndsIn (f : Forest) (d : DeclId) (text : String) : Prop :=
  ∃ x, f.get? d = some x ∧
    renderDeclaration f d = .ok (joined (commentLines 0 x.comments) ++ (text ++ "\n"))

def Uncommented (f : Forest) (ids : List DeclId) : Prop :=
  ∀ d ∈ ids, ∀ x, f.get? d = some x → x.comments = .none

def ownSection (f : Forest) (ids : List DeclId) : Except Fault String := do
  let texts ← ids.mapM (renderDeclaration f)
  return if ids.isEmpty then "" else String.join texts ++ "\n"

structure SectionOf (f : Forest) (ids : List DeclId) (texts : List String) : Prop where
  lines : List.Forall₂ (EndsIn f) ids texts
  agrees : ownSection f ids = .ok (sectionText texts) ↔ Uncommented f ids

theorem endsIn_of_contentLines (hf : f.Invariant) {x : Declaration} {text : String}
    (hx : f.get? d = some x) (hl : f.nestingLevel d = 0)
    (hc : ∀ render, contentLines f render d 0 x.content = .ok [⟨0, text⟩]) : EndsIn f d text := by
  refine ⟨x, hx, ?_⟩
  rw [renderDeclaration_eq, hl, lines_eq hf hx, hc]
  simp [Except.map, Line.toText_zero]

theorem uncommented_cons_iff {x : Declaration} (hx : f.get? d = some x) :
    Uncommented f (d :: ids) ↔ x.comments = .none ∧ Uncommented f ids := by
  simp [Uncommented, hx]

/-- Comments only make a text longer, so the lengths tell whether there are any. -/
private theorem exists_own_texts (h : List.Forall₂ (EndsIn f) ids texts) :
    ∃ own, ids.mapM (renderDeclaration f) = .ok own ∧
      (String.join (texts.map (· ++ "\n"))).length ≤ (String.join own).length ∧
      (String.join own = String.join (texts.map (· ++ "\n")) ↔ Uncommented f ids) := by
  induction h with
  | nil => exact ⟨[], rfl, Nat.le_refl _, by simp [Uncommented]⟩
  | @cons d text ids texts hd _ ih =>
    obtain ⟨x, hx, hr⟩ := hd
    obtain ⟨own, hown, hle, hiff⟩ := ih
    refine ⟨(joined (commentLines 0 x.comments) ++ (text ++ "\n")) :: own, ?_, ?_, ?_⟩
    · simp [List.mapM_cons, hr, hown]
    · simp only [List.map_cons, String.join_cons, String.length_append]
      omega
    · rw [uncommented_cons_iff hx, ← hiff, ← commentLines_eq_nil_iff 0]
      constructor
      · intro heq
        have hlen := congrArg String.length heq
        simp only [List.map_cons, String.join_cons, String.length_append] at hlen
        have hempty : (joined (commentLines 0 x.comments)).length = 0 := by omega
        have hnone := length_joined_eq_zero_iff.mp hempty
        refine ⟨hnone, ?_⟩
        rw [hnone] at heq
        simpa using heq
      · rintro ⟨hnone, heq⟩
        simp [hnone, heq]

theorem sectionOf_of_lines (h : List.Forall₂ (EndsIn f) ids texts) : SectionOf f ids texts := by
  refine ⟨h, ?_⟩
  obtain ⟨own, hown, -, hiff⟩ := exists_own_texts h
  rw [ownSection, hown, ← hiff]
  cases h with
  | nil =>
    obtain rfl : [] = own := by simpa using hown
    simp [sectionText]
  | cons => simp [sectionText]

theorem endsIn_import (hf : f.Invariant) {target : Descriptor} {text : String}
    (hl : f.nestingLevel d = 0) (hc : f.content? d = some (.typeImport target))
    (ht : importText f target = .ok text) : EndsIn f d text := by
  obtain ⟨⟨c, o, k⟩, hx, rfl⟩ := Option.map_eq_some_iff.mp hc
  exact endsIn_of_contentLines hf hx hl fun _ => by simp [contentLines, ht]

theorem endsIn_staticImport (hf : f.Invariant) {target : Descriptor} {member text : String}
    (hl : f.nestingLevel d = 0) (hc : f.content? d = some (.staticImport target member))
    (ht : staticImportText f target member = .ok text) : EndsIn f d text := by
  obtain ⟨⟨c, o, k⟩, hx, rfl⟩ := Option.map_eq_some_iff.mp hc
  exact endsIn_of_contentLines hf hx hl fun _ => by simp [contentLines, ht]

theorem sectionOf_package (hf : f.Invariant) {u : UnitId} {unit : CompilationUnit}
    (hu : f.unit? u = some unit) :
    SectionOf f unit.package.toList ((f.packageName? u).map packageText).toList := by
  apply sectionOf_of_lines
  cases hp : unit.package with
  | none => simp [packageName?, hu, hp]
  | some p =>
    obtain ⟨name, hc⟩ := (hf.content_of_mem_unit hu).1 hp
    obtain ⟨⟨c, o, k⟩, hx, rfl⟩ := Option.map_eq_some_iff.mp hc
    have hl : f.nestingLevel p = 0 := by
      apply hf.nestingLevel_of_mem_unit (u := u)
      simp [held_unit_of_unit? hu, CompilationUnit.all, hp]
    have hname : f.packageName? u = some name := by simp [packageName?, hu, hp, hx]
    simpa [hname] using endsIn_of_contentLines hf hx hl fun _ => rfl

theorem mapM_renderDeclaration_eq_error_iff (hf : f.Invariant) {fault : Fault} :
    ids.mapM (renderDeclaration f) = .error fault ↔ FirstFault f ids fault := by
  induction ids with
  | nil => simp [not_firstFault_nil]
  | cons d ids ih =>
    have hd : ∀ fault, renderDeclaration f d = .error fault ↔ Unwritable f d fault :=
      fun _ => renderDeclaration_eq_error_iff hf
    rw [List.mapM_cons, firstFault_cons_iff, ← ih]
    simp only [← hd]
    cases renderDeclaration f d with
    | error other => simp
    | ok text => cases ids.mapM (renderDeclaration f) <;> simp

structure WritesSections (f : Forest) : Prop where
  sections : ∀ u unit s, f.unit? u = some unit → generate f u = .ok s →
    ∃ package imports statics types, SectionOf f unit.package.toList package ∧
      SectionOf f unit.imports imports ∧ SectionOf f unit.staticImports statics ∧
      List.Forall₂ (fun t text => renderDeclaration f t = .ok text) unit.types types ∧
      s = sectionText package ++ sectionText imports ++ sectionText statics ++ "\n" ++
        "\n".intercalate types
  faults : ∀ u unit fault, f.unit? u = some unit →
    (generate f u = .error fault ↔
      (unit.imports ++ unit.staticImports).mapM (renderDeclaration f) = .error fault)

theorem reachable_writesSections (h : f.Reachable) : WritesSections f := by
  have hf := reachable_invariant h
  constructor
  · intro u unit s hu hs
    obtain ⟨imports, statics, types, htexts, rfl⟩ := generate_text hf hu hs
    have hlevel : ∀ d ∈ unit.all, f.nestingLevel d = 0 := fun d hd =>
      hf.nestingLevel_of_mem_unit (held_unit_of_unit? hu ▸ hd)
    refine ⟨_, imports, statics, types, sectionOf_package hf hu, sectionOf_of_lines ?_,
      sectionOf_of_lines ?_, htexts.types, rfl⟩
    · have himports : ∀ d ∈ unit.imports, f.nestingLevel d = 0 :=
        fun d hd => hlevel d (by simp [CompilationUnit.all, hd])
      refine ((List.forall₂_and_left _ _).mpr ⟨himports, htexts.imports⟩).imp ?_
      rintro d text ⟨hl, target, hc, ht⟩
      exact endsIn_import hf hl hc ht
    · have hstatics : ∀ d ∈ unit.staticImports, f.nestingLevel d = 0 :=
        fun d hd => hlevel d (by simp [CompilationUnit.all, hd])
      refine ((List.forall₂_and_left _ _).mpr ⟨hstatics, htexts.statics⟩).imp ?_
      rintro d text ⟨hl, target, member, hc, ht⟩
      exact endsIn_staticImport hf hl hc ht
  · intro u unit fault hu
    rw [generate_eq_error_iff hf hu, mapM_renderDeclaration_eq_error_iff hf]

theorem sample_writesSections : sample.Reachable ∧ WritesSections sample ∧
    ownSection sample [⟨7⟩] = .ok "import b.C.D;\n\n" :=
  ⟨sample_reachable, reachable_writesSections sample_reachable, by decide +kernel⟩

def documented : Forest := (empty 0).after
  [.newUnit, .setPackage ⟨0⟩ "demo", .setDoc ⟨0⟩ "Root package."]

/-- The unit leaves out what the package itself is written with. -/
theorem documented_sections_differ : documented.Reachable ∧
    documented.unit? ⟨0⟩ = some ⟨some ⟨0⟩, [], [], []⟩ ∧
    ∃ own s, ownSection documented [⟨0⟩] = .ok own ∧ generate documented ⟨0⟩ = .ok s ∧
      own = "/**\n * Root package.\n */\npackage demo;\n\n" ∧ s = "package demo;\n\n\n" ∧
      ¬own.toList <:+: s.toList :=
  ⟨⟨0, _, rfl⟩, by decide +kernel, _, _, by decide +kernel, by decide +kernel, rfl, rfl,
    by decide +kernel⟩

end DeclForest.Source
