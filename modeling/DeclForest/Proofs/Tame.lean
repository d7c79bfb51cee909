import DeclForest.Proofs.Nesting
import DeclForest.Proofs.Spelling

/-!
Texts that leave the nesting of a source alone. What users supply is written as it is, so a
declaration is `Tame` if none of it holds a brace, what is to stand on one line has no line feed,
and nothing that may come first in a line starts with a tab. What is made of such texts on the way
into a source, and the words of the language, are no wilder.
-/

namespace DeclForest

open Text

/-- What names have to lack: they may come first in a line. -/
def Text.marks : List Char := '\t' :: breaks

def Descriptor.names (d : Descriptor) : List String :=
  match d.referent with
  | .primitive _ => []
  | .external t => [t.qualifiedName]
  | .defined _ name _ => [name]

def Parameter.names (p : Parameter) : List String := p.name :: p.type.names

namespace Content

def names : Content → List String
  | field f => f.name :: f.type.names
  | method m => m.name :: (m.returns.names ++ m.parameters.flatMap Parameter.names ++
      m.throws.flatMap Descriptor.names)
  | constructor c => c.parameters.flatMap Parameter.names ++ c.throws.flatMap Descriptor.names
  | initializer _ | staticInitializer _ => []
  | type t => t.name :: (t.superclass.toList ++ t.superInterfaces).flatMap Descriptor.names
  | package name => [name]
  | typeImport target => target.names
  | staticImport target member => member :: target.names

def initializers : Content → List String
  | field f => f.initializer.toList
  | _ => []

def statements : Content → List String
  | method m => m.body.getD []
  | constructor c => c.body
  | initializer body | staticInitializer body => body
  | _ => []

end Content

/-- The texts of a declaration leave the nesting and the indentation alone. Statements and block
comments may be of any number of lines. -/
structure Declaration.Tame (x : Declaration) : Prop where
  names : ∀ s ∈ x.content.names, Lacks marks s
  initializers : ∀ s ∈ x.content.initializers, Lacks breaks s
  statements : ∀ s ∈ x.content.statements,
    Lacks braces s ∧ ∀ line ∈ lineStrings s, line.toList.head? ≠ some '\t'
  blocks : ∀ s ∈ x.comments.doc.toList ++ x.comments.block.toList, Lacks braces s
  lineComments : ∀ s ∈ x.comments.lines, Lacks breaks s

instance (x : Declaration) : Decidable x.Tame :=
  decidable_of_iff ((∀ s ∈ x.content.names, Lacks marks s) ∧
      (∀ s ∈ x.content.initializers, Lacks breaks s) ∧
      (∀ s ∈ x.content.statements,
        Lacks braces s ∧ ∀ line ∈ lineStrings s, line.toList.head? ≠ some '\t') ∧
      (∀ s ∈ x.comments.doc.toList ++ x.comments.block.toList, Lacks braces s) ∧
      ∀ s ∈ x.comments.lines, Lacks breaks s)
    ⟨fun h => ⟨h.1, h.2.1, h.2.2.1, h.2.2.2.1, h.2.2.2.2⟩,
      fun h => ⟨h.names, h.initializers, h.statements, h.blocks, h.lineComments⟩⟩

namespace Text

variable {s : String} {line : List Char}

theorem Lacks.breaks (h : Lacks marks s) : Lacks breaks s := h.mono (List.subset_cons_self _ _)

theorem Lacks.no_tab (h : Lacks marks s) : '\t' ∉ s.toList := h.not_mem List.mem_cons_self

theorem not_mem_of_mem_lines {text : List Char} (h : line ∈ lines text) : '\n' ∉ line := by
  fun_induction lines text generalizing line with
  | case1 => simp at h
  | case2 rest ih =>
    rcases List.mem_cons.mp h with rfl | h
    · simp
    · exact ih h
  | case3 rest ih =>
    rcases List.mem_cons.mp h with rfl | h
    · simp
    · exact ih h
  | case4 c rest hbreak _ hnil _ =>
    obtain rfl := List.mem_singleton.mp h
    have hc : '\n' ≠ c := fun hc => hbreak hc.symm
    simpa using hc
  | case5 c rest hbreak _ first others heq ih =>
    rw [heq] at ih
    have hc : '\n' ≠ c := fun hc => hbreak hc.symm
    rcases List.mem_cons.mp h with rfl | h
    · simpa [hc] using ih List.mem_cons_self
    · exact ih (List.mem_cons_of_mem first h)

/-- A line of a text has no brace that the text has not. -/
theorem lacks_line (h : Lacks braces s) {source : List Char} (hs : source ∈ lines s.toList)
    (hl : line ⊆ source) : Lacks breaks (String.ofList line) := by
  intro c hc
  rw [String.toList_ofList] at hc
  have hin : c ∈ s.toList := (infix_of_mem_lines hs).subset (hl hc)
  have hbreak : c ≠ '\n' := by
    rintro rfl
    exact not_mem_of_mem_lines hs (hl hc)
  rw [Text.breaks, List.mem_cons, not_or]
  exact ⟨hbreak, h c hin⟩

theorem lacks_of_mem_lineStrings (h : Lacks braces s) {text : String} (ht : text ∈ lineStrings s) :
    Lacks breaks text := by
  obtain ⟨source, hs, rfl⟩ := List.mem_map.mp ht
  exact lacks_line h hs (List.Subset.refl _)

theorem lacks_of_mem_commentStrings (h : Lacks braces s) {text : String}
    (ht : text ∈ commentStrings s) : Lacks breaks text := by
  obtain ⟨line, hl, rfl⟩ := List.mem_map.mp ht
  obtain ⟨source, hs, blanks, -, htrim⟩ := exists_of_mem_commentLines hl
  refine lacks_line h hs fun c hc => ?_
  have hin : c ∈ trimEnd source := htrim ▸ List.mem_append_right blanks hc
  have hkept := List.dropWhile_subset _ (List.mem_reverse.mp hin)
  exact List.mem_reverse.mp hkept

theorem lacks_dotted {name : List Char} (h : ∀ c ∈ name, c ∉ marks) :
    Lacks marks (String.ofList (dotted name)) := by
  intro c hc
  rw [String.toList_ofList] at hc
  obtain ⟨a, ha, rfl⟩ := List.mem_map.mp hc
  split
  · decide
  · exact h a ha

theorem lacks_sourceName (h : Lacks marks s) : Lacks marks (sourceName s) := lacks_dotted h

theorem lacks_simpleName (h : Lacks marks s) : Lacks marks (simpleName s) := by
  refine lacks_dotted fun c hc => h c ?_
  have hkept := (List.takeWhile_prefix _).subset (List.mem_reverse.mp hc)
  exact List.mem_reverse.mp hkept

end Text

section Names

variable {d : Descriptor}

theorem Primitive.lacks_keyword (p : Primitive) : Lacks marks p.keyword := by
  cases p <;> decide

theorem Descriptor.lacks_simpleName (h : ∀ s ∈ d.names, Lacks marks s) :
    Lacks marks d.simpleName := by
  unfold names at h
  unfold simpleName
  cases hx : d.referent with
  | primitive p => exact p.lacks_keyword
  | external t =>
    rw [hx] at h
    exact Text.lacks_simpleName (h _ (List.mem_singleton_self _))
  | defined id name kind =>
    rw [hx] at h
    exact h _ (List.mem_singleton_self _)

theorem Descriptor.lacks_display (h : ∀ s ∈ d.names, Lacks marks s) : Lacks marks d.display := by
  have hsimple := lacks_simpleName h
  unfold names at h
  unfold display
  cases hx : d.referent with
  | external t =>
    rw [hx] at h
    exact lacks_sourceName (h _ (List.mem_singleton_self _))
  | _ => exact hsimple

theorem Parameter.lacks_display {p : Parameter} (h : ∀ s ∈ p.names, Lacks marks s) :
    Lacks marks p.display := by
  have hname : Lacks marks p.name := h _ List.mem_cons_self
  have htype : Lacks marks p.type.simpleName :=
    Descriptor.lacks_simpleName fun s hs => h s (List.mem_cons_of_mem _ hs)
  have hfinal : Lacks marks (if p.isFinal then "final " else "") := by split <;> decide
  unfold display
  simp only [lacks_append_iff]
  exact ⟨⟨⟨hfinal, htype⟩, by decide⟩, hname⟩

theorem Modifiers.lacks_leading (m : Modifiers) : Lacks marks m.leading := by
  have hword : ∀ s ∈ m.words, Lacks marks s := by
    intro s hs
    rcases List.mem_append.mp hs with hs | hs
    · obtain ⟨flag, -, rfl⟩ := List.mem_map.mp hs
      cases flag <;> decide
    · split at hs
      · simp at hs
      · obtain rfl := List.mem_singleton.mp hs
        have hdigit : ∀ d < 16, Nat.digitChar d ∉ marks := by decide
        rw [lacks_append_iff]
        refine ⟨by decide, fun c hc => ?_⟩
        rw [String.toList_ofList, hex, List.leftpad, List.mem_append] at hc
        rcases hc with hc | hc
        · rw [List.eq_of_mem_replicate hc]
          decide
        · obtain ⟨d, hd, rfl⟩ := exists_digitChar_of_mem hc
          exact hdigit d hd
  unfold leading
  split
  · decide
  · rw [lacks_append_iff]
    exact ⟨lacks_intercalate (by decide) hword, by decide⟩

end Names

namespace Source

variable {types : List Descriptor} {parameters : List Parameter}

theorem lacks_typeList (h : ∀ s ∈ types.flatMap Descriptor.names, Lacks marks s) :
    Lacks marks (typeList types) := by
  apply lacks_intercalate (by decide)
  intro s hs
  obtain ⟨d, hd, rfl⟩ := List.mem_map.mp hs
  exact Descriptor.lacks_simpleName fun s hs => h s (List.mem_flatMap.mpr ⟨d, hd, hs⟩)

theorem lacks_parameterList (h : ∀ s ∈ parameters.flatMap Parameter.names, Lacks marks s) :
    Lacks marks (parameterList parameters) := by
  apply lacks_intercalate (by decide)
  intro s hs
  obtain ⟨p, hp, rfl⟩ := List.mem_map.mp hs
  exact Parameter.lacks_display fun s hs => h s (List.mem_flatMap.mpr ⟨p, hp, hs⟩)

theorem lacks_throwsClause (h : ∀ s ∈ types.flatMap Descriptor.names, Lacks marks s) :
    Lacks marks (throwsClause types) := by
  unfold throwsClause
  split
  · decide
  · exact lacks_append_iff.mpr ⟨by decide, lacks_typeList h⟩

end Source

end DeclForest
