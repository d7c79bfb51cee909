import DeclForest.Proofs.Bare
import DeclForest.Proofs.CommentLines
import DeclForest.Proofs.CommentRemoval

/-!
Comments stay comments, as far as their own texts let them. A block ends where its text first ends
it, and a line comment at the first line end of its text, because texts are written as they are. A
comment whose text ends nothing can be taken out of the source again, and with all comments taken
out the source of a declaration is that of the declaration without comments.
-/

namespace DeclForest

open Text

namespace Source

def closingMark : List Char := ['*', '/']

theorem solid_closingMark : Solid closingMark := by
  have hslash : ∀ c ∈ ['/'], isBlank c = false := List.forall_mem_singleton.mpr (by decide)
  exact ⟨List.cons_ne_nil _ _, List.forall_mem_cons.mpr ⟨by decide, hslash⟩⟩

theorem toList_toText (l : Line) :
    l.toText.toList =
      (if l.text.isEmpty then [] else List.replicate l.level '\t' ++ l.text.toList) ++ ['\n'] := by
  unfold Line.toText Line.tabs
  split <;> simp

theorem infix_toText_iff {p : List Char} (hp : Solid p) (l : Line) (rest : List Char) :
    p <:+: l.toText.toList ++ rest ↔ p <:+: l.text.toList ∨ p <:+: rest := by
  rw [toList_toText, List.append_assoc, List.singleton_append,
    hp.infix_append_blank_iff (by decide)]
  split
  · have hempty : l.text = "" := by simpa using ‹l.text.isEmpty = true›
    simp [hempty]
  · rw [hp.infix_append_iff fun _ => isBlank_of_mem_tabs]

/-- A piece without blanks is in the text of some lines if it is in one of them. -/
theorem infix_joined_iff {p : List Char} (hp : Solid p) (ls : List Line) :
    p <:+: (joined ls).toList ↔ ∃ l ∈ ls, p <:+: l.text.toList := by
  induction ls with
  | nil =>
    simp only [joined_nil, List.not_mem_nil, false_and, exists_false, iff_false]
    exact fun h => hp.ne_nil (List.infix_nil.mp h)
  | cons l ls ih =>
    rw [joined_cons, String.toList_append, infix_toText_iff hp, ih]
    simp

def blockMiddle (level : Nat) (text : String) : List Line :=
  (commentStrings text).map fun line => ⟨level, if line.isEmpty then " *" else " * " ++ line⟩

def blockStart (level : Nat) (opening text : String) : List Line :=
  ⟨level, opening⟩ :: blockMiddle level text

theorem commentBlock_eq (level : Nat) (opening text : String) :
    commentBlock level opening text = blockStart level opening text ++ [⟨level, " */"⟩] := rfl

theorem closingMark_infix_line (line : String) :
    closingMark <:+: (if line.isEmpty then " *" else " * " ++ line).toList ↔
      closingMark <:+: line.toList := by
  split
  · have hempty : line = "" := by simpa using ‹line.isEmpty = true›
    subst hempty
    decide
  · have htext : (" * " ++ line).toList = [' ', '*'] ++ ' ' :: line.toList := by simp
    have hstar : ¬closingMark <:+: [' ', '*'] := by decide
    rw [htext, solid_closingMark.infix_append_blank_iff (by decide)]
    exact ⟨fun h => h.resolve_left hstar, .inr⟩

/-- In front of its last line a block comment is ended by its own text or not at all. -/
theorem closingMark_infix_blockStart {opening : String} (level : Nat) (text : String)
    (h : ¬closingMark <:+: opening.toList) :
    closingMark <:+: (joined (blockStart level opening text)).toList ↔
      closingMark <:+: text.toList := by
  rw [infix_joined_iff solid_closingMark, ← solid_closingMark.infix_commentLines_iff]
  constructor
  · rintro ⟨l, hl, hin⟩
    rcases List.mem_cons.mp hl with rfl | hl
    · exact absurd hin h
    · obtain ⟨line, hline, rfl⟩ := List.mem_map.mp hl
      obtain ⟨chars, hchars, rfl⟩ := List.mem_map.mp hline
      have hin := (closingMark_infix_line _).mp hin
      exact ⟨chars, hchars, by simpa using hin⟩
  · rintro ⟨chars, hchars, hin⟩
    have hline : String.ofList chars ∈ commentStrings text := List.mem_map_of_mem hchars
    refine ⟨_, List.mem_cons_of_mem _ (List.mem_map_of_mem hline), ?_⟩
    exact (closingMark_infix_line _).mpr (by simpa using hin)

/-- A text that may be taken out of a source without a trace. -/
def Vanishes (written : String) : Prop :=
  ∀ rest, uncommented (written.toList ++ rest) = uncommented rest

theorem Vanishes.append {a b : String} (ha : Vanishes a) (hb : Vanishes b) : Vanishes (a ++ b) := by
  intro rest
  rw [String.toList_append, List.append_assoc, ha, hb]

theorem vanishes_empty : Vanishes "" := fun _ => rfl

def blockInner (level : Nat) (tail : List Char) (text : String) : List Char :=
  tail ++ '\n' :: ((joined (blockMiddle level text)).toList ++ List.replicate level '\t' ++ [' '])

theorem toList_commentBlock {opening : String} {tail : List Char} (level : Nat) (text : String)
    (ho : opening.toList = '/' :: '*' :: tail) (rest : List Char) :
    (joined (commentBlock level opening text)).toList ++ rest =
      List.replicate level '\t' ++ '/' :: '*' ::
        (blockInner level tail text ++ '*' :: '/' :: '\n' :: rest) := by
  have hne : opening ≠ "" := by
    rintro rfl
    simp at ho
  rw [commentBlock_eq, blockStart, joined_append, joined_cons, joined_cons, Line.toText_of_ne hne,
    Line.toText_of_ne (by decide)]
  simp [Line.tabs, ho, blockInner]

theorem not_closingMark_infix_blockInner {opening : String} {tail : List Char} (level : Nat)
    {text : String} (ho : opening.toList = '/' :: '*' :: tail)
    (hn : ¬closingMark <:+: opening.toList) (h : ¬closingMark <:+: text.toList) :
    ¬closingMark <:+: blockInner level tail text := by
  have hblanks : ∀ c ∈ List.replicate level '\t' ++ [' '], isBlank c = true := by
    intro c hc
    rcases List.mem_append.mp hc with hc | hc
    · exact isBlank_of_mem_tabs hc
    · exact List.mem_singleton.mp hc ▸ by decide
  rw [blockInner, List.append_assoc, solid_closingMark.infix_append_blank_iff (by decide),
    solid_closingMark.infix_append_blanks_iff hblanks]
  rintro (htail | hmiddle)
  · exact hn (ho ▸ List.infix_cons (List.infix_cons htail))
  · apply h
    rw [← closingMark_infix_blockStart level text hn, blockStart, joined_cons, String.toList_append]
    exact hmiddle.trans List.infix_append_right

theorem vanishes_commentBlock {opening : String} {t : List Char} (level : Nat) {text : String}
    (ho : opening.toList = '/' :: '*' :: t) (hn : ¬closingMark <:+: opening.toList)
    (h : ¬closingMark <:+: text.toList) : Vanishes (joined (commentBlock level opening text)) := by
  intro rest
  rw [toList_commentBlock level text ho,
    uncommented_blockComment level (not_closingMark_infix_blockInner level ho hn h)]

def lineGroup (level : Nat) (lines : List String) : List Line :=
  lines.map fun line => ⟨level, "// " ++ line⟩

theorem toList_lineComment (level : Nat) (line : String) :
    (Line.toText ⟨level, "// " ++ line⟩).toList =
      List.replicate level '\t' ++ '/' :: '/' :: (' ' :: line.toList ++ ['\n']) := by
  rw [Line.toText_of_ne (by simp)]
  simp [Line.tabs]

theorem vanishes_lineGroup (level : Nat) {lines : List String}
    (h : ∀ line ∈ lines, ∀ c ∈ line.toList, isLineEnd c = false) :
    Vanishes (joined (lineGroup level lines)) := by
  induction lines with
  | nil => exact vanishes_empty
  | cons line lines ih =>
    have hline : ∀ c ∈ ' ' :: line.toList, isLineEnd c = false :=
      List.forall_mem_cons.mpr ⟨by decide, h line List.mem_cons_self⟩
    have hfirst : Vanishes (Line.toText ⟨level, "// " ++ line⟩) := by
      intro rest
      rw [toList_lineComment]
      simpa using uncommented_lineComment level hline rest
    exact joined_cons _ _ ▸ hfirst.append (ih fun x hx => h x (List.mem_cons_of_mem line hx))

end Source

structure Comments.Contained (c : Comments) : Prop where
  doc : ∀ text ∈ c.doc, ¬Source.closingMark <:+: text.toList
  block : ∀ text ∈ c.block, ¬Source.closingMark <:+: text.toList
  lines : ∀ line ∈ c.lines, ∀ x ∈ line.toList, Source.isLineEnd x = false

def Comments.contained (c : Comments) : Bool :=
  ((c.doc.toList ++ c.block.toList).all fun text =>
    !decide (Source.closingMark <:+: text.toList)) &&
    c.lines.all fun line => line.toList.all fun x => !Source.isLineEnd x

theorem Comments.contained_iff {c : Comments} : c.contained = true ↔ c.Contained := by
  simp only [contained, Bool.and_eq_true, List.all_eq_true, List.mem_append, Option.mem_toList,
    Bool.not_eq_true', decide_eq_false_iff_not]
  constructor
  · rintro ⟨hblocks, hlines⟩
    exact ⟨fun text ht => hblocks text (.inl ht), fun text ht => hblocks text (.inr ht), hlines⟩
  · intro h
    refine ⟨?_, h.lines⟩
    rintro text (ht | ht)
    · exact h.doc text ht
    · exact h.block text ht

instance (c : Comments) : Decidable c.Contained := decidable_of_iff _ Comments.contained_iff

namespace Source

theorem vanishes_commentLines (level : Nat) {c : Comments} (h : c.Contained) :
    Vanishes (joined (commentLines level c)) := by
  have hdoc : Vanishes (joined ((c.doc.map (commentBlock level "/**")).getD [])) := by
    cases hd : c.doc with
    | none => exact vanishes_empty
    | some text =>
      exact vanishes_commentBlock (t := ['*']) level (by decide) (by decide)
        (h.doc text (by simp [hd]))
  have hblock : Vanishes (joined ((c.block.map (commentBlock level "/*")).getD [])) := by
    cases hb : c.block with
    | none => exact vanishes_empty
    | some text =>
      exact vanishes_commentBlock (t := []) level (by decide) (by decide)
        (h.block text (by simp [hb]))
  rw [commentLines, joined_append, joined_append]
  exact (hdoc.append hblock).append (vanishes_lineGroup level h.lines)

/-- By induction on how the lines are put together: comments vanish, all other lines stay. -/
theorem Commented.uncommented_eq {ls plain : List Line} (h : Commented Comments.Contained ls plain)
    (hplain : Plain (joined plain).toList) :
    uncommented (joined ls).toList = (joined plain).toList := by
  induction h with
  | nil => rfl
  | line l _ ih =>
    rw [joined_cons, String.toList_append] at hplain ⊢
    have hline : Plain l.toText.toList := hplain.of_infix List.infix_append_left
    have hrest := ih (hplain.of_infix List.infix_append_right)
    rw [joined_cons, String.toList_append, toList_toText] at *
    rw [List.append_assoc, List.singleton_append,
      uncommented_plain (hline.of_infix List.infix_append_left), hrest]
    simp
  | comments level hc _ ih =>
    rw [joined_append, String.toList_append, vanishes_commentLines level hc, ih hplain]

theorem not_mem_of_mem_splitOn {text piece : List Char} (h : piece ∈ text.splitOn '\n') :
    '\n' ∉ piece := by
  induction text generalizing piece with
  | nil =>
    rw [List.splitOn_nil, List.mem_singleton] at h
    simp [h]
  | cons c text ih =>
    rw [List.splitOn_cons_eq_if_modifyHead] at h
    obtain ⟨first, others, hsplit⟩ := List.exists_cons_of_ne_nil (List.splitOn_ne_nil '\n' text)
    rw [hsplit] at h ih
    split at h
    · rcases List.mem_cons.mp h with rfl | h
      · simp
      · exact ih h
    · rename_i hc
      rcases List.mem_cons.mp h with rfl | h
      · have hfirst := ih List.mem_cons_self
        have hne : '\n' ≠ c := by
          rintro rfl
          exact hc (by simp)
        simp [hfirst, hne]
      · exact ih (List.mem_cons_of_mem first h)

/-- The lines of a source that line comments make up, one for each of them. -/
def OneLineEach (level : Nat) (lines : List String) : Prop :=
  (joined (lineGroup level lines)).toList.splitOn '\n' =
    (lines.map fun line => (Line.tabs level ++ "// " ++ line).toList) ++ [[]]

instance (level : Nat) (lines : List String) : Decidable (OneLineEach level lines) :=
  inferInstanceAs (Decidable (_ = _))

theorem oneLineEach_iff {level : Nat} {lines : List String} :
    OneLineEach level lines ↔ ∀ line ∈ lines, '\n' ∉ line.toList := by
  constructor
  · intro h line hline hbreak
    have hpiece : (Line.tabs level ++ "// " ++ line).toList ∈
        (joined (lineGroup level lines)).toList.splitOn '\n' := by
      rw [h]
      exact List.mem_append_left _ (List.mem_map_of_mem hline)
    exact not_mem_of_mem_splitOn hpiece (by simp [hbreak])
  · intro h
    unfold OneLineEach
    induction lines with
    | nil => rfl
    | cons line lines ih =>
      have hrest := ih fun x hx => h x (List.mem_cons_of_mem line hx)
      have hline : '\n' ∉ (Line.tabs level ++ "// " ++ line).toList := by
        simp [Line.tabs, List.mem_replicate, h line List.mem_cons_self]
      have htext : (joined (lineGroup level (line :: lines))).toList =
          (Line.tabs level ++ "// " ++ line).toList ++
            '\n' :: (joined (lineGroup level lines)).toList := by
        rw [lineGroup, List.map_cons, joined_cons, Line.toText_of_ne (by simp)]
        simp [lineGroup, String.append_assoc]
      rw [htext, List.splitOn_append_cons_self_of_not_mem hline, hrest]
      rfl

/-- What parts the comments of a forest from the rest of its source. -/
structure CommentsStay (f : Forest) : Prop where
  /-- What a comment is written as: its blocks, then its line comments. -/
  written : ∀ d x, f.get? d = some x → ∀ level, commentLines level x.comments =
    (x.comments.doc.map (commentBlock level "/**")).getD [] ++
      (x.comments.block.map (commentBlock level "/*")).getD [] ++
      lineGroup level x.comments.lines
  blocks : ∀ d x, f.get? d = some x → ∀ level text opening,
    (x.comments.doc = some text ∧ opening = "/**" ∨
      x.comments.block = some text ∧ opening = "/*") →
    joined (commentBlock level opening text) =
        joined (blockStart level opening text) ++ (Line.tabs level ++ " */\n") ∧
      (closingMark <:+: (joined (blockStart level opening text)).toList ↔
        closingMark <:+: text.toList)
  lines : ∀ d x, f.get? d = some x → ∀ level,
    OneLineEach level x.comments.lines ↔ ∀ line ∈ x.comments.lines, '\n' ∉ line.toList
  /-- Taking out the comments undoes writing them, if none of them is ended by its own text. -/
  deleted : ∀ d plain, (∀ e x, d ∈ f.ancestors e → f.get? e = some x → x.comments.Contained) →
    renderDeclaration f.bare d = .ok plain → Plain plain.toList →
    ∃ text, renderDeclaration f d = .ok text ∧ uncommented text.toList = plain.toList
  faults : ∀ d fault,
    renderDeclaration f d = .error fault ↔ renderDeclaration f.bare d = .error fault

theorem reachable_commentsStay {f : Forest} (h : f.Reachable) : CommentsStay f := by
  have hf := Forest.reachable_invariant h
  constructor
  · exact fun _ _ _ _ => rfl
  · intro d x _ level text opening hopening
    have hn : ¬closingMark <:+: opening.toList := by
      rcases hopening with ⟨-, rfl⟩ | ⟨-, rfl⟩ <;> decide
    refine ⟨?_, closingMark_infix_blockStart level text hn⟩
    rw [commentBlock_eq, joined_append, joined_cons, joined_nil, Line.toText_of_ne (by decide)]
    simp [String.append_assoc]
  · exact fun _ _ _ _ => oneLineEach_iff
  · intro d plain hcontained hbare hplain
    rcases renderDeclaration_bare hf hcontained with ⟨ls, ls', hc, hr, hr'⟩ | ⟨fault, -, hr'⟩
    · obtain rfl := Except.ok.inj (hr'.symm.trans hbare)
      exact ⟨joined ls, hr, hc.uncommented_eq hplain⟩
    · exact absurd (hr'.symm.trans hbare) (by simp)
  · intro d fault
    rcases renderDeclaration_bare (P := fun _ => True) (d := d) hf fun _ _ _ _ => trivial with
      ⟨ls, ls', -, hr, hr'⟩ | ⟨fault', hr, hr'⟩
    · simp [hr, hr']
    · simp [hr, hr']

/-- The comment of a nested class is taken out of its source. -/
theorem sample_commentsStay : Forest.sample.Reachable ∧
    ∃ text, renderDeclaration Forest.sample ⟨3⟩ = .ok text ∧ uncommented text.toList =
      ("\n".intercalate (sampleNested.drop 3 ++ [""])).toList := by
  have hall : ∀ x ∈ Forest.sample.decls, x.comments.Contained := by decide +kernel
  refine ⟨Forest.sample_reachable, (reachable_commentsStay Forest.sample_reachable).deleted ⟨3⟩ _
    (fun e x _ hx => hall x (Array.mem_of_getElem? hx)) (by decide +kernel) (by decide +kernel)⟩

def leaking : Forest := (Forest.empty 0).after
  [.declare (.field ⟨"size", ⟨0, .primitive .int⟩, .empty, none⟩),
   .addLine ⟨0⟩ "note\nint leaked;",
   .declare (.field ⟨"rest", ⟨0, .primitive .int⟩, .empty, none⟩),
   .setDoc ⟨1⟩ "ends */ int leaked; /* goes on"]

/-- Both comments leave something behind in the source when comments are taken out of it. -/
theorem leaking_comments : leaking.Reachable ∧
    (∃ x, leaking.get? ⟨0⟩ = some x ∧ ¬OneLineEach 0 x.comments.lines) ∧
    (∃ x text, leaking.get? ⟨1⟩ = some x ∧ x.comments.doc = some text ∧
      closingMark <:+: (joined (blockStart 0 "/**" text)).toList) ∧
    (∃ text, renderDeclaration leaking ⟨0⟩ = .ok text ∧
      renderDeclaration leaking.bare ⟨0⟩ = .ok "int size;\n" ∧
      uncommented text.toList = "int leaked;\nint size;\n".toList) ∧
    ∃ text, renderDeclaration leaking ⟨1⟩ = .ok text ∧
      renderDeclaration leaking.bare ⟨1⟩ = .ok "int rest;\n" ∧
      uncommented text.toList = " int leaked; \nint rest;\n".toList := by
  refine ⟨⟨0, _, rfl⟩, ⟨_, rfl, by decide +kernel⟩, ⟨_, _, rfl, rfl, by decide +kernel⟩, ?_, ?_⟩
  · exact ⟨"// note\nint leaked;\nint size;\n", by decide +kernel, by decide +kernel,
      by decide +kernel⟩
  · exact ⟨"/**\n * ends */ int leaked; /* goes on\n */\nint rest;\n", by decide +kernel,
      by decide +kernel, by decide +kernel⟩

end Source

end DeclForest
