import DeclForest.Proofs.Rendering

/-!
How texts are put together. A unit is its head and the texts of its types, a type is its comments,
its first line, the texts of its members and a closing brace; all of them are the texts that the
declarations have when they are rendered on their own. Followed down to the leaves, this finds the
text of every declaration of a unit in one place of the text of the unit.
-/

namespace DeclForest.Source

open Forest

section Text

@[simp] theorem joined_nil : joined [] = "" := rfl

@[simp] theorem joined_cons (l : Line) (ls : List Line) :
    joined (l :: ls) = l.toText ++ joined ls := by
  simp [joined]

@[simp] theorem joined_append (ls rest : List Line) :
    joined (ls ++ rest) = joined ls ++ joined rest := by
  simp [joined]

theorem Line.toText_of_ne {level : Nat} {text : String} (h : text ≠ "") :
    Line.toText ⟨level, text⟩ = tabs level ++ text ++ "\n" := by
  simp [toText, h]

theorem Line.toText_zero (text : String) : Line.toText ⟨0, text⟩ = text ++ "\n" := by
  by_cases h : text = ""
  · simp [toText, h]
  · simp [toText_of_ne h, tabs]

@[simp] theorem Line.toText_blank : Line.blank.toText = "\n" := Line.toText_zero ""

theorem joined_map_zero (texts : List String) :
    joined (texts.map fun text => ⟨0, text⟩) = String.join (texts.map (· ++ "\n")) := by
  induction texts with
  | nil => rfl
  | cons text texts ih => simp [Line.toText_zero, ih]

theorem typeHead_ne_empty (t : TypeDefinition) : typeHead t ≠ "" := by
  simp [typeHead]

def sectionText (texts : List String) : String :=
  if texts.isEmpty then "" else String.join (texts.map (· ++ "\n")) ++ "\n"

def headText (package : Option String) (imports statics : List String) : String :=
  sectionText (package.map packageText).toList ++ sectionText imports ++ sectionText statics

/-- Texts of members, each with whether it is of a field. Between two of them stands an empty line
unless both are of fields. -/
def spaced : List (Bool × String) → String
  | [] => ""
  | [part] => part.2
  | part :: next :: rest =>
    part.2 ++ (if part.1 && next.1 then "" else "\n") ++ spaced (next :: rest)

def typeText (level : Nat) (comments : Comments) (t : TypeDefinition)
    (parts : List (Bool × String)) : String :=
  joined (commentLines level comments) ++ (Line.tabs level ++ typeHead t ++ "\n") ++
    spaced parts ++ (Line.tabs level ++ r"}" ++ "\n")

end Text

variable {f : Forest} {d t : DeclId} {render : DeclId → Except Fault (List Line)}

def IsPart (f : Forest) (m : DeclId) (part : Bool × String) : Prop :=
  (f.content? m).map Content.isField = some part.1 ∧ renderDeclaration f m = .ok part.2

theorem joined_separator (before isField : Bool) :
    joined (separator (some before) isField) = if before && isField then "" else "\n" := by
  cases before <;> cases isField <;> simp [separator]

private theorem exists_parts_cons {m : DeclId} {ids : List DeclId} {before : Option Bool}
    {ls : List Line}
    (hr : ∀ x ∈ m :: ids, ∀ own, render x = .ok own → renderDeclaration f x = .ok (joined own))
    (h : memberLines f render before (m :: ids) = .ok ls) :
    ∃ part parts, List.Forall₂ (IsPart f) (m :: ids) (part :: parts) ∧
      joined ls = joined (separator before part.1) ++ spaced (part :: parts) := by
  induction ids generalizing m before ls with
  | nil =>
    obtain ⟨x, hx, h⟩ := bind_eq_ok.mp h
    obtain ⟨own, ho, h⟩ := bind_eq_ok.mp h
    have hx := content?_of_get? (declaration_eq_ok_iff.mp hx)
    simp only [memberLines, ok_bind, pure_eq_ok, Except.ok.injEq] at h
    refine ⟨(x.content.isField, joined own), [], ?_, ?_⟩
    · exact .cons ⟨by simp [hx], hr m List.mem_cons_self own ho⟩ .nil
    · simp [← h, spaced]
  | cons next ids ih =>
    rw [memberLines] at h
    obtain ⟨x, hx, h⟩ := bind_eq_ok.mp h
    obtain ⟨own, ho, h⟩ := bind_eq_ok.mp h
    obtain ⟨others, hrest, h⟩ := bind_eq_ok.mp h
    have hx := content?_of_get? (declaration_eq_ok_iff.mp hx)
    obtain ⟨part, parts, hparts, hj⟩ := ih (fun y hy => hr y (List.mem_cons_of_mem m hy)) hrest
    simp only [pure_eq_ok, Except.ok.injEq] at h
    refine ⟨(x.content.isField, joined own), part :: parts, ?_, ?_⟩
    · exact .cons ⟨by simp [hx], hr m List.mem_cons_self own ho⟩ hparts
    · rw [← h, joined_append, joined_append, hj, joined_separator, spaced]
      simp only [String.append_assoc]

private theorem exists_parts {ids : List DeclId} {ls : List Line}
    (hr : ∀ x ∈ ids, ∀ own, render x = .ok own → renderDeclaration f x = .ok (joined own))
    (h : memberLines f render none ids = .ok ls) :
    ∃ parts, List.Forall₂ (IsPart f) ids parts ∧ joined ls = spaced parts := by
  cases ids with
  | nil =>
    obtain rfl : [] = ls := by simpa [memberLines] using h
    exact ⟨[], .nil, rfl⟩
  | cons m ids =>
    obtain ⟨part, parts, hparts, hj⟩ := exists_parts_cons hr h
    refine ⟨part :: parts, hparts, ?_⟩
    rw [hj]
    simp [separator]

theorem renderDeclaration_type (hf : f.Invariant) {definition : TypeDefinition}
    {o : Option Owner} {comments : Comments}
    (hx : f.get? t = some ⟨.type definition, o, comments⟩) :
    ∃ parts, List.Forall₂ (IsPart f) definition.members parts ∧
      renderDeclaration f t = .ok (typeText (f.nestingLevel t) comments definition parts) := by
  have ht : f.type? t = some definition := type?_eq_some_iff.mpr ⟨o, comments, hx⟩
  obtain ⟨ls, hl⟩ := exists_lines_of_type hf ht (f.nestingLevel t)
  rw [renderDeclaration_of_lines hl]
  rw [lines_eq hf hx, map_eq_ok] at hl
  obtain ⟨content, hc, rfl⟩ := hl
  obtain ⟨members, hm, hc⟩ := bind_eq_ok.mp hc
  simp only [pure_eq_ok, Except.ok.injEq] at hc
  obtain ⟨parts, hparts, hj⟩ := exists_parts (fun m hmem own ho => by
    rw [← hf.nestingLevel_of_mem ht hmem] at ho
    exact renderDeclaration_of_lines ho) hm
  refine ⟨parts, hparts, ?_⟩
  simp only [← hc, typeText, joined_append, joined_cons, joined_nil, hj,
    Line.toText_of_ne (typeHead_ne_empty definition), Line.toText_of_ne (show r"}" ≠ "" by decide)]
  simp [String.append_assoc]

private theorem exists_texts_bodyLines {ids : List DeclId} {ls : List Line}
    (hr : ∀ x ∈ ids, ∀ own, lines f x 0 = .ok own → renderDeclaration f x = .ok (joined own))
    (h : bodyLines f ids = .ok ls) :
    ∃ texts, List.Forall₂ (fun x text => renderDeclaration f x = .ok text) ids texts ∧
      joined ls = "\n".intercalate texts := by
  induction ids generalizing ls with
  | nil =>
    obtain rfl : [] = ls := by simpa [bodyLines] using h
    exact ⟨[], .nil, rfl⟩
  | cons x ids ih =>
    have hx := hr x List.mem_cons_self
    cases ids with
    | nil => exact ⟨[joined ls], .cons (hx ls h) .nil, by simp⟩
    | cons next rest =>
      obtain ⟨own, ho, h⟩ := bind_eq_ok.mp h
      obtain ⟨others, hrest, h⟩ := bind_eq_ok.mp h
      obtain ⟨texts, ht, hj⟩ := ih (fun y hy => hr y (List.mem_cons_of_mem x hy)) hrest
      obtain rfl : own ++ .blank :: others = ls := by simpa using h
      refine ⟨joined own :: texts, .cons (hx own ho) ht, ?_⟩
      cases ht with
      | cons => simp [hj, String.append_assoc]

private theorem filterMapM_eq_ok {step : DeclId → Except Fault (Option String)}
    {ids : List DeclId} {texts : List String} (h : ids.filterMapM step = .ok texts)
    (hs : ∀ d ∈ ids, step d ≠ .ok none) :
    List.Forall₂ (fun d text => step d = .ok (some text)) ids texts := by
  induction ids generalizing texts with
  | nil =>
    obtain rfl : [] = texts := by simpa using h
    exact .nil
  | cons d ids ih =>
    rw [List.filterMapM_cons] at h
    obtain ⟨text, ht, h⟩ := bind_eq_ok.mp h
    cases text with
    | none => exact absurd ht (hs d List.mem_cons_self)
    | some text =>
      obtain ⟨texts, hrest, h⟩ := bind_eq_ok.mp h
      obtain rfl : text :: texts = _ := by simpa using h
      exact .cons ht (ih hrest fun x hx => hs x (List.mem_cons_of_mem d hx))

private theorem importSection_text {line? : Content → Except Fault (Option String)}
    {ids : List DeclId} {ls : List Line}
    (hs : ∀ d ∈ ids, ∀ c, f.content? d = some c → line? c ≠ .ok none)
    (h : importSection f line? ids = .ok ls) :
    ∃ texts, List.Forall₂ (fun d text => ∃ c, f.content? d = some c ∧ line? c = .ok (some text))
        ids texts ∧ joined ls = sectionText texts := by
  obtain ⟨texts, ht, h⟩ := bind_eq_ok.mp h
  have hstep : ∀ d ∈ ids, (do line? (← f.declaration d).content) ≠ .ok none := by
    intro d hd hn
    obtain ⟨x, hx, hn⟩ := bind_eq_ok.mp hn
    exact hs d hd x.content (content?_of_get? (declaration_eq_ok_iff.mp hx)) hn
  have hall := filterMapM_eq_ok ht hstep
  refine ⟨texts, hall.imp fun d text hd => ?_, ?_⟩
  · obtain ⟨x, hx, hl⟩ := bind_eq_ok.mp hd
    exact ⟨x.content, content?_of_get? (declaration_eq_ok_iff.mp hx), hl⟩
  · simp only [pure_eq_ok, Except.ok.injEq] at h
    cases hall with
    | nil => simp [← h, sectionText]
    | cons => simp [← h, sectionText, joined_map_zero, -List.map_cons]

private theorem typeImportText?_eq_ok_iff {c : Content} {text : String} :
    typeImportText? f c = .ok (some text) ↔
      ∃ target, c = .typeImport target ∧ importText f target = .ok text := by
  cases c <;> simp [typeImportText?, map_eq_ok]

private theorem staticImportText?_eq_ok_iff {c : Content} {text : String} :
    staticImportText? f c = .ok (some text) ↔
      ∃ target member, c = .staticImport target member ∧
        staticImportText f target member = .ok text := by
  cases c <;> simp [staticImportText?, map_eq_ok]

theorem joined_packageLines (name : Option String) :
    joined (packageLines name) = sectionText (name.map packageText).toList := by
  cases name <;> simp [packageLines, sectionText, Line.toText_zero]

/-- The lines of the imports of a unit and the texts of its types, one for each and in order. -/
structure UnitTexts (f : Forest) (unit : CompilationUnit) (imports statics texts : List String) :
    Prop where
  imports : List.Forall₂ (fun d text => ∃ target, f.content? d = some (.typeImport target) ∧
    importText f target = .ok text) unit.imports imports
  statics : List.Forall₂ (fun d text => ∃ target member,
    f.content? d = some (.staticImport target member) ∧
    staticImportText f target member = .ok text) unit.staticImports statics
  types : List.Forall₂ (fun t text => renderDeclaration f t = .ok text) unit.types texts

theorem generate_text (hf : f.Invariant) {u : UnitId} {unit : CompilationUnit} {s : String}
    (hu : f.unit? u = some unit) (h : generate f u = .ok s) :
    ∃ imports statics texts, UnitTexts f unit imports statics texts ∧
      s = headText (f.packageName? u) imports statics ++ "\n" ++ "\n".intercalate texts := by
  unfold generate at h
  rw [unit_eq_ok_iff.mpr hu, ok_bind, packageSection_eq hf hu, ok_bind] at h
  obtain ⟨importLines, hi, h⟩ := bind_eq_ok.mp h
  obtain ⟨staticLines, hs, h⟩ := bind_eq_ok.mp h
  obtain ⟨body, hb, h⟩ := bind_eq_ok.mp h
  simp only [pure_eq_ok, Except.ok.injEq] at h
  obtain ⟨imports, himports, hji⟩ := importSection_text (fun d hd c hc => by
    obtain ⟨target, ht⟩ := (hf.content_of_mem_unit hu).2.1 hd
    obtain rfl := Option.some.inj (ht.symm.trans hc)
    simp [typeImportText?, map_eq_ok]) hi
  obtain ⟨statics, hstatics, hjs⟩ := importSection_text (fun d hd c hc => by
    obtain ⟨target, member, ht⟩ := (hf.content_of_mem_unit hu).2.2.1 hd
    obtain rfl := Option.some.inj (ht.symm.trans hc)
    simp [staticImportText?, map_eq_ok]) hs
  obtain ⟨texts, htexts, hjb⟩ := exists_texts_bodyLines (fun t ht own ho => by
    rw [← hf.nestingLevel_of_unit_type hu ht] at ho
    exact renderDeclaration_of_lines ho) hb
  refine ⟨imports, statics, texts, ⟨?_, ?_, htexts⟩, ?_⟩
  · apply himports.imp
    intro d text hd
    obtain ⟨c, hc, hl⟩ := hd
    obtain ⟨target, rfl, ht⟩ := typeImportText?_eq_ok_iff.mp hl
    exact ⟨target, hc, ht⟩
  · apply hstatics.imp
    intro d text hd
    obtain ⟨c, hc, hl⟩ := hd
    obtain ⟨target, member, rfl, ht⟩ := staticImportText?_eq_ok_iff.mp hl
    exact ⟨target, member, hc, ht⟩
  · rw [← h]
    simp [headText, joined_packageLines, hji, hjs, hjb, String.append_assoc]

/-- A text as a tree, in which `of` marks a piece as the text of a declaration. -/
inductive Marked where
  | own (text : String)
  | both (first second : Marked)
  | of (id : DeclId) (inner : Marked)
  deriving DecidableEq, Repr

namespace Marked

def text : Marked → String
  | own text => text
  | both a b => a.text ++ b.text
  | of _ inner => inner.text

def tops : Marked → List DeclId
  | own _ => []
  | both a b => a.tops ++ b.tops
  | of id _ => [id]

def marks : Marked → List DeclId
  | own _ => []
  | both a b => a.marks ++ b.marks
  | of id inner => id :: inner.marks

/-- Under each mark stands the text that the declaration has on its own, and right below it are the
marks of its members. -/
def Faithful (f : Forest) : Marked → Prop
  | own _ => True
  | both a b => a.Faithful f ∧ b.Faithful f
  | of id inner => renderDeclaration f id = .ok inner.text ∧
      inner.tops = f.held (.type id) ∧ inner.Faithful f

theorem mem_marks_iff (hf : f.Invariant) {a : Marked} (h : a.Faithful f) :
    d ∈ a.marks ↔ ∃ t ∈ a.tops, t ∈ f.ancestors d := by
  induction a with
  | own text => simp [marks, tops]
  | both a b iha ihb =>
    simp only [marks, tops, List.mem_append, iha h.1, ihb h.2, or_and_right, exists_or]
  | of id inner ih =>
    rw [marks, List.mem_cons, ih h.2.2, h.2.1, ← hf.mem_ancestors_held_iff]
    simp [tops]

/-- On one level no declaration stands below two others, so that no mark comes twice. -/
theorem nodup_marks (hf : f.Invariant) {a : Marked} {level : Nat} (h : a.Faithful f)
    (hn : a.tops.Nodup) (hl : ∀ t ∈ a.tops, f.nestingLevel t = level) : a.marks.Nodup := by
  induction a generalizing level with
  | own text => exact List.nodup_nil
  | both a b iha ihb =>
    simp only [tops, List.nodup_append, List.mem_append] at hn hl
    refine List.nodup_append.mpr ⟨iha h.1 hn.1 fun t ht => hl t (.inl ht),
      ihb h.2 hn.2.1 fun t ht => hl t (.inr ht), ?_⟩
    rintro x hx y hy rfl
    obtain ⟨t, ht, hxt⟩ := (mem_marks_iff hf h.1).mp hx
    obtain ⟨t', ht', hxt'⟩ := (mem_marks_iff hf h.2).mp hy
    exact hn.2.2 t ht t' ht'
      (hf.eq_of_nestingLevel_eq hxt hxt' ((hl t (.inl ht)).trans (hl t' (.inr ht')).symm))
  | of id inner ih =>
    have hmember : ∀ t ∈ inner.tops, f.nestingLevel t = f.nestingLevel id + 1 := by
      intro t ht
      rw [h.2.1] at ht
      exact hf.nestingLevel_of_ownedBy ((hf.owned t (.type id)).mpr ht)
    refine List.nodup_cons.mpr ⟨?_, ih h.2.2 (h.2.1 ▸ hf.nodup (.type id)) hmember⟩
    intro hid
    obtain ⟨t, ht, hup⟩ := (mem_marks_iff hf h.2.2).mp hid
    have hle := hf.nestingLevel_le_of_mem hup
    rw [hmember t ht] at hle
    omega

end Marked

/-- The text is that of a faithful tree with these marks outermost. -/
def Markable (f : Forest) (ids : List DeclId) (text : String) : Prop :=
  ∃ a : Marked, a.tops = ids ∧ a.Faithful f ∧ a.text = text

namespace Markable

variable {ids rest : List DeclId} {text other : String}

theorem own (f : Forest) (text : String) : Markable f [] text := ⟨.own text, rfl, trivial, rfl⟩

theorem append (h : Markable f ids text) (ho : Markable f rest other) :
    Markable f (ids ++ rest) (text ++ other) := by
  obtain ⟨a, rfl, ha, rfl⟩ := h
  obtain ⟨b, rfl, hb, rfl⟩ := ho
  exact ⟨.both a b, rfl, ⟨ha, hb⟩, rfl⟩

theorem mark (h : Markable f (f.held (.type d)) text) (hr : renderDeclaration f d = .ok text) :
    Markable f [d] text := by
  obtain ⟨a, ht, ha, rfl⟩ := h
  exact ⟨.of d a, rfl, ⟨hr, ht, ha⟩, rfl⟩

theorem spaced {parts : List (Bool × String)} (h : List.Forall₂ (IsPart f) ids parts)
    (hm : ∀ m ∈ ids, ∀ text, renderDeclaration f m = .ok text → Markable f [m] text) :
    Markable f ids (spaced parts) := by
  induction h with
  | nil => exact own f ""
  | @cons m part ids parts hpart hrest ih =>
    have hfirst := hm m List.mem_cons_self part.2 hpart.2
    have hothers := ih fun x hx => hm x (List.mem_cons_of_mem m hx)
    cases hrest with
    | nil => exact hfirst
    | @cons next other ids parts =>
      have hgap := hfirst.append (own f (if part.1 && other.1 then "" else "\n"))
      exact hgap.append hothers

theorem intercalate {texts : List String}
    (h : List.Forall₂ (fun t text => renderDeclaration f t = .ok text) ids texts)
    (hm : ∀ t ∈ ids, ∀ text, renderDeclaration f t = .ok text → Markable f [t] text) :
    Markable f ids ("\n".intercalate texts) := by
  induction h with
  | nil => exact own f ""
  | @cons t text ids texts ht hrest ih =>
    have hfirst := hm t List.mem_cons_self text ht
    have hothers := ih fun x hx => hm x (List.mem_cons_of_mem t hx)
    cases hrest with
    | nil => simpa using hfirst
    | @cons next other ids texts =>
      rw [String.intercalate_cons_cons]
      exact (hfirst.append (own f "\n")).append hothers

end Markable

/-- Whatever can be rendered can be taken apart down to its leaves. -/
theorem markable_of_render (hf : f.Invariant) {d : DeclId} {text : String}
    (h : renderDeclaration f d = .ok text) : Markable f [d] text := by
  refine Markable.mark ?_ h
  cases ht : f.type? d with
  | none =>
    have hheld : f.held (.type d) = [] :=
      List.eq_nil_iff_forall_not_mem.mpr fun m hm => by simp [mem_held_type_iff, ht] at hm
    rw [hheld]
    exact .own f text
  | some definition =>
    obtain ⟨o, comments, hx⟩ := type?_eq_some_iff.mp ht
    obtain ⟨parts, hparts, hr⟩ := renderDeclaration_type hf hx
    obtain rfl := Except.ok.inj (hr.symm.trans h)
    have hmembers : Markable f definition.members (spaced parts) := by
      refine .spaced hparts fun m hm text hm' => ?_
      have hl := hf.nestingLevel_of_mem ht hm
      have hlt := hf.nestingLevel_lt (hf.isSome_of_mem ht hm)
      exact markable_of_render hf hm'
    rw [held_type_of_type? ht, ← List.append_nil definition.members]
    exact ((Markable.own f _).append hmembers).append (.own f _)
termination_by f.decls.size - f.nestingLevel d

structure Composes (f : Forest) : Prop where
  unit_text : ∀ u unit s, f.unit? u = some unit → generate f u = .ok s →
    ∃ imports statics texts, UnitTexts f unit imports statics texts ∧
      s = headText (f.packageName? u) imports statics ++ "\n" ++ "\n".intercalate texts
  type_text : ∀ t definition o comments, f.get? t = some ⟨.type definition, o, comments⟩ →
    ∃ parts, List.Forall₂ (IsPart f) definition.members parts ∧
      renderDeclaration f t = .ok (typeText (f.nestingLevel t) comments definition parts)
  /-- The text of a unit holds that of each declaration below its types once, where it belongs. -/
  used_once : ∀ u unit s, f.unit? u = some unit → generate f u = .ok s →
    ∃ a : Marked, a.text = s ∧ a.tops = unit.types ∧ a.Faithful f ∧ a.marks.Nodup ∧
      ∀ d, d ∈ a.marks ↔ ∃ t ∈ unit.types, t ∈ f.ancestors d

theorem reachable_composes (h : f.Reachable) : Composes f := by
  have hf := reachable_invariant h
  constructor
  · exact fun u unit s hu hs => generate_text hf hu hs
  · exact fun t definition o comments hx => renderDeclaration_type hf hx
  · intro u unit s hu hs
    obtain ⟨imports, statics, texts, htexts, rfl⟩ := generate_text hf hu hs
    have hbody : Markable f unit.types ("\n".intercalate texts) :=
      .intercalate htexts.types fun t _ text ht => markable_of_render hf ht
    obtain ⟨a, htops, ha, htext⟩ :=
      (Markable.own f (headText (f.packageName? u) imports statics ++ "\n")).append hbody
    rw [List.nil_append] at htops
    refine ⟨a, htext, htops, ha, ?_, fun d => ?_⟩
    · have hlevel : ∀ t ∈ a.tops, f.nestingLevel t = 0 :=
        fun t ht => hf.nestingLevel_of_unit_type hu (htops ▸ ht)
      exact Marked.nodup_marks hf ha (htops ▸ (hf.unit_nodup hu).2.2) hlevel
    · rw [Marked.mem_marks_iff hf ha, htops]

/-- The nested class of the sample; only its second and its third member are kept apart. -/
def sampleNested : List String :=
  ["\t/**", "\t * nested", "\t */", "\t" ++ r"class D {", "\t\tint x;", "\t\tint y;", "",
    "\t\t" ++ r"D() {", "\t\t" ++ r"}", "\t" ++ r"}"]

def sampleUnit : List String :=
  ["package b;", "", "import b.C.D;", "", "", r"class C {"] ++ sampleNested ++ [r"}"]

/-- The nested class and its members stand in the text of their unit, the detached constructor and
the import do not. -/
theorem sample_composes : sample.Reachable ∧ Composes sample ∧
    renderDeclaration sample ⟨3⟩ = .ok ("\n".intercalate (sampleNested ++ [""])) ∧
    generate sample ⟨0⟩ = .ok ("\n".intercalate (sampleUnit ++ [""])) ∧
    ∃ a : Marked, a.text = "\n".intercalate (sampleUnit ++ [""]) ∧ a.Faithful sample ∧
      a.marks.Nodup ∧ (∀ d ∈ [⟨2⟩, ⟨3⟩, ⟨4⟩, ⟨5⟩, ⟨6⟩], d ∈ a.marks) ∧
      ∀ d ∈ [⟨7⟩, ⟨8⟩], d ∉ a.marks := by
  have hcomposes := reachable_composes sample_reachable
  have hg : generate sample ⟨0⟩ = .ok ("\n".intercalate (sampleUnit ++ [""])) := by decide +kernel
  have hu : sample.unit? ⟨0⟩ = some ⟨some ⟨1⟩, [⟨7⟩], [], [⟨2⟩]⟩ := by decide +kernel
  obtain ⟨a, htext, -, ha, hnodup, hmarks⟩ := hcomposes.used_once ⟨0⟩ _ _ hu hg
  simp only [List.mem_singleton, exists_eq_left] at hmarks
  refine ⟨sample_reachable, hcomposes, by decide +kernel, hg, a, htext, ha, hnodup, ?_, ?_⟩
  all_goals
    simp only [hmarks]
    decide +kernel

end DeclForest.Source
