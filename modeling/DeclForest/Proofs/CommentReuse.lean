import DeclForest.Proofs.CommentSettled
import DeclForest.Proofs.Locality

/-!
Comments that are used again. What is copied of a comment from source text is the text of its lines,
and that has the same lines again; a forest in which it takes the place of the original is written
like the one before, because rendering sees of comments nothing but their lines.
-/

namespace DeclForest

namespace Forest

variable (f : Forest) (d : DeclId)

theorem bare_comment (change : Comments → Comments) :
    (f.updateDecl d fun x => { x with comments := change x.comments }).bare = f.bare := by
  have hdecls : (f.updateDecl d fun x => { x with comments := change x.comments }).bare.decls =
      f.bare.decls := by
    apply Array.ext_getElem?
    intro i
    simp only [bare, updateDecl, Array.getElem?_map, Array.getElem?_modify]
    split
    · cases f.decls[i]? <;> rfl
    · rfl
  exact congrArg (fun decls => { f with decls := decls }) hdecls

theorem run_comment {f : Forest} {d : DeclId} {x : Declaration} (hx : f.get? d = some x)
    (change : Comments → Comments) :
    (comment d change).run f =
      (.ok (), f.updateDecl d fun x => { x with comments := change x.comments }) := by
  rw [comment, Edit.run_inspect_bind_of_ok (declaration_eq_ok_iff.mpr hx)]
  rfl

end Forest

namespace Source

open Forest Text

structure Recommented (f g : Forest) : Prop where
  bare : g.bare = f.bare
  comments : ∀ d x y level, f.get? d = some x → g.get? d = some y →
    commentLines level y.comments = commentLines level x.comments

namespace Recommented

variable {f g : Forest} (h : Recommented f g)

include h

theorem exists_get? {d : DeclId} {x : Declaration} (hx : f.get? d = some x) :
    ∃ y, g.get? d = some y ∧ y.content = x.content := by
  have hbare := congrArg (fun k : Forest => k.get? d) h.bare
  simp only [get?_bare, hx] at hbare
  obtain ⟨y, hy, hyx⟩ := Option.map_eq_some_iff.mp hbare
  exact ⟨y, hy, (Declaration.mk.inj hyx).1⟩

theorem get?_of_none {d : DeclId} (hx : f.get? d = none) : g.get? d = none := by
  have hbare := congrArg (fun k : Forest => k.get? d) h.bare
  simpa [hx] using hbare

theorem declaration_bind {α : Type} (d : DeclId) (next : Content → Except Fault α) :
    (g.declaration d >>= fun x => next x.content) =
      f.declaration d >>= fun x => next x.content := by
  have hbare : ∀ k : Forest, (k.declaration d >>= fun x => next x.content) =
      k.bare.declaration d >>= fun x => next x.content := by
    intro k
    rw [declaration_bare]
    cases k.declaration d <;> rfl
  rw [hbare g, h.bare, ← hbare f]

theorem unit_eq (u : UnitId) : g.unit u = f.unit u := by
  show g.bare.unit u = f.bare.unit u
  rw [h.bare]

theorem nestingLevel_eq (d : DeclId) : g.nestingLevel d = f.nestingLevel d := by
  rw [← nestingLevel_bare, h.bare, nestingLevel_bare]

theorem importName_eq (target : Descriptor) : importName g target = importName f target := by
  rw [← importName_bare, h.bare, importName_bare]

theorem owner?_eq (d : DeclId) : g.owner? d = f.owner? d := by
  rw [← owner?_bare, h.bare, owner?_bare]

theorem describe_eq (d : DeclId) : g.describe d = f.describe d := by
  rw [← describe_bare, h.bare, describe_bare]

theorem typeDefinition_eq (d : DeclId) : g.typeDefinition d = f.typeDefinition d := by
  rw [← typeDefinition_bare, h.bare, typeDefinition_bare]

theorem memberLines_eq (render : DeclId → Except Fault (List Line)) (before : Option Bool)
    (ids : List DeclId) : memberLines g render before ids = memberLines f render before ids := by
  induction ids generalizing before with
  | nil => rfl
  | cons m ids ih =>
    unfold memberLines
    simp only [ih]
    exact h.declaration_bind m fun c => do
      let own ← render m
      let others ← memberLines f render (some c.isField) ids
      return separator before c.isField ++ own ++ others

theorem contentLines_eq (render : DeclId → Except Fault (List Line)) (d : DeclId) (level : Nat)
    (c : Content) : contentLines g render d level c = contentLines f render d level c := by
  cases c with
  | type t => simp only [contentLines, h.memberLines_eq]
  | method m => simp only [contentLines, owningType?, h.owner?_eq, h.typeDefinition_eq]
  | constructor k =>
    simp only [contentLines, h.owner?_eq, h.typeDefinition_eq, h.describe_eq]
  | typeImport target => simp only [contentLines, importText, h.importName_eq]
  | staticImport target member => simp only [contentLines, staticImportText, h.importName_eq]
  | _ => rfl

theorem linesWithin_eq (n : Nat) (d : DeclId) (level : Nat) :
    linesWithin g n d level = linesWithin f n d level := by
  induction n generalizing d level with
  | zero => rfl
  | succ n ih =>
    have hmembers : (fun m => linesWithin g n m (level + 1)) =
        fun m => linesWithin f n m (level + 1) := funext fun m => ih m (level + 1)
    cases hx : f.get? d with
    | none => simp [linesWithin, declaration, hx, h.get?_of_none hx]
    | some x =>
      obtain ⟨y, hy, hcontent⟩ := h.exists_get? hx
      rw [linesWithin, linesWithin, declaration_eq_ok_iff.mpr hx, declaration_eq_ok_iff.mpr hy,
        ok_bind, ok_bind, hcontent, hmembers, h.contentLines_eq, h.comments d x y level hx hy]

theorem lines_eq (d : DeclId) (level : Nat) : lines g d level = lines f d level := by
  have hsize : g.decls.size = f.decls.size := by
    rw [← size_decls_bare, h.bare, size_decls_bare]
  unfold lines
  rw [hsize, h.linesWithin_eq]

theorem renderDeclaration_eq (d : DeclId) : renderDeclaration g d = renderDeclaration f d := by
  unfold renderDeclaration
  rw [h.lines_eq, h.nestingLevel_eq]
  exact h.declaration_bind d fun _ => (lines f d (f.nestingLevel d)).map joined

theorem packageSection_eq (unit : CompilationUnit) :
    packageSection g unit = packageSection f unit := by
  unfold packageSection
  cases unit.package with
  | none => rfl
  | some p =>
    cases hx : f.get? p with
    | none => simp only [declaration, hx, h.get?_of_none hx]
    | some x =>
      obtain ⟨y, hy, hcontent⟩ := h.exists_get? hx
      simp only [declaration_eq_ok_iff.mpr hx, declaration_eq_ok_iff.mpr hy, ok_bind, hcontent]

theorem importSection_eq {line? line?' : Content → Except Fault (Option String)}
    (hline : ∀ c, line?' c = line? c) (ids : List DeclId) :
    importSection g line?' ids = importSection f line? ids := by
  obtain rfl : line?' = line? := funext hline
  unfold importSection
  rw [SameTree.filterMapM_congr fun d _ => h.declaration_bind d line?']

/-- Units are written alike as well, or fail alike. -/
theorem generate_eq (u : UnitId) : generate g u = generate f u := by
  have htypes : ∀ c, typeImportText? g c = typeImportText? f c := by
    intro c
    cases c <;> simp [typeImportText?, importText, h.importName_eq]
  have hstatics : ∀ c, staticImportText? g c = staticImportText? f c := by
    intro c
    cases c <;> simp [staticImportText?, staticImportText, h.importName_eq]
  have hbody : ∀ ids, bodyLines g ids = bodyLines f ids :=
    fun ids => SameTree.bodyLines_eq fun t _ => h.lines_eq t 0
  unfold generate
  simp only [h.unit_eq, h.packageSection_eq, h.importSection_eq htypes,
    h.importSection_eq hstatics, hbody]

end Recommented

def unmarked (line : List Char) : List Char := (line.dropWhile (· = '\t')).drop 3

/-- The text of a comment as it is copied from source text: what stands between the first and the
last line, each line without its tabs and its mark. -/
def commentText (source : String) : String :=
  String.ofList (['\n'].intercalate ((Text.lines source.toList).tail.dropLast.map unmarked))

def rejoined (text : String) : String := "\n".intercalate (commentStrings text)

theorem toList_rejoined (text : String) :
    (rejoined text).toList = ['\n'].intercalate (Text.commentLines text.toList) := by
  simp [rejoined, commentStrings, Function.comp_def]

theorem commentStrings_rejoined (text : String) :
    commentStrings (rejoined text) = commentStrings text := by
  have hsettled := settled_commentLines text.toList
  rw [commentStrings, toList_rejoined, hsettled.commentLines_intercalate]
  rfl

theorem commentBlock_rejoined (level : Nat) (opening text : String) :
    commentBlock level opening (rejoined text) = commentBlock level opening text := by
  rw [commentBlock, commentStrings_rejoined]
  rfl

theorem lines_joined {ls : List Line} (h : ∀ l ∈ ls, Unbroken l.chars) :
    Text.lines (joined ls).toList = ls.map Line.chars := by
  induction ls with
  | nil => rfl
  | cons l ls ih =>
    rw [toList_joined_cons, (h l List.mem_cons_self).append_feed,
      ih fun x hx => h x (List.mem_cons_of_mem l hx)]
    rfl

theorem Line.chars_of_ne {level : Nat} {text : String} (h : text ≠ "") :
    Line.chars ⟨level, text⟩ = List.replicate level '\t' ++ text.toList := by
  simp [chars, h]

theorem unbroken_chars {level : Nat} {text : String} (h : Unbroken text.toList) :
    Unbroken (Line.chars ⟨level, text⟩) := by
  by_cases hne : text = ""
  · subst hne
    exact ⟨by simp [Line.chars], by simp [Line.chars]⟩
  · rw [Line.chars_of_ne hne]
    apply h.behind (by simpa using hne)
    intro htab
    exact absurd (List.eq_of_mem_replicate htab) (by decide)

/-- The mark of a comment line does not change how it ends. -/
theorem unbroken_marked {line : String} (h : Unbroken line.toList) :
    Unbroken (if line.isEmpty then " *" else " * " ++ line).toList := by
  split
  · exact ⟨by decide, by decide⟩
  · have hne : line.toList ≠ [] := by simpa using ‹¬line.isEmpty = true›
    rw [String.toList_append]
    exact h.behind hne (by decide)

theorem unmarked_chars (level : Nat) (line : String) :
    unmarked (Line.chars ⟨level, if line.isEmpty then " *" else " * " ++ line⟩) = line.toList := by
  have htabs : ∀ rest : List Char,
      (List.replicate level '\t' ++ ' ' :: rest).dropWhile (· = '\t') = ' ' :: rest := by
    intro rest
    rw [List.dropWhile_append_of_pos]
    · rfl
    · intro c hc
      simpa using List.eq_of_mem_replicate hc
  split
  · have hempty : line = "" := by simpa using ‹line.isEmpty = true›
    rw [Line.chars_of_ne (by decide), unmarked, hempty]
    exact congrArg (List.drop 3) (htabs ['*'])
  · have htext : (" * " ++ line).toList = ' ' :: '*' :: ' ' :: line.toList := by simp
    rw [Line.chars_of_ne (by simp), unmarked, htext]
    exact congrArg (List.drop 3) (htabs _)

/-- A comment that is copied from source text has the lines of the text it was made from. -/
theorem commentText_commentBlock (level : Nat) {opening : String} (text : String)
    (ho : Unbroken opening.toList) :
    commentText (joined (commentBlock level opening text)) = rejoined text := by
  have hsettled := settled_commentLines text.toList
  have hmarked : ∀ line ∈ commentStrings text,
      Unbroken (if line.isEmpty then " *" else " * " ++ line).toList := by
    intro line hl
    obtain ⟨chars, hchars, rfl⟩ := List.mem_map.mp hl
    apply unbroken_marked
    rw [String.toList_ofList]
    exact hsettled.unbroken hchars
  have hlines : ∀ l ∈ commentBlock level opening text, Unbroken l.chars := by
    intro l hl
    rw [commentBlock_eq, blockStart, blockMiddle] at hl
    rcases List.mem_append.mp hl with hl | hl
    · rcases List.mem_cons.mp hl with rfl | hl
      · exact unbroken_chars ho
      · obtain ⟨line, hline, rfl⟩ := List.mem_map.mp hl
        exact unbroken_chars (hmarked line hline)
    · obtain rfl := List.mem_singleton.mp hl
      exact unbroken_chars ⟨by decide, by decide⟩
  have hinner : ((commentBlock level opening text).map Line.chars).tail.dropLast.map unmarked =
      Text.commentLines text.toList := by
    have hline : (unmarked ∘ Line.chars) ∘ (fun line : String =>
        ⟨level, if line.isEmpty then " *" else " * " ++ line⟩) = String.toList :=
      funext (unmarked_chars level)
    rw [commentBlock_eq, blockStart, blockMiddle, List.cons_append, List.map_cons, List.tail_cons,
      List.map_append, List.map_singleton, List.dropLast_concat, List.map_map, List.map_map, hline]
    simp [commentStrings, Function.comp_def]
  rw [commentText, lines_joined hlines, hinner, ← toList_rejoined, String.ofList_toList]

def WrittenAlike (f g : Forest) : Prop :=
  (∀ d, renderDeclaration g d = renderDeclaration f d) ∧ ∀ u, generate g u = generate f u

theorem Recommented.writtenAlike {f g : Forest} (h : Recommented f g) : WrittenAlike f g :=
  ⟨h.renderDeclaration_eq, h.generate_eq⟩

theorem recommented_of_comment {f : Forest} {d : DeclId} {x : Declaration}
    (hx : f.get? d = some x) (change : Comments → Comments)
    (hc : ∀ level, commentLines level (change x.comments) = commentLines level x.comments) :
    Recommented f ((comment d change).run f).2 := by
  rw [run_comment hx]
  refine ⟨f.bare_comment d change, fun e y z level hy hz => ?_⟩
  rw [get?_updateDecl, hy] at hz
  split at hz
  · obtain rfl := ‹e = d›
    obtain rfl := Option.some.inj (hx.symm.trans hy)
    obtain rfl := Option.some.inj hz
    exact hc level
  · obtain rfl := Option.some.inj hz
    rfl

structure Reusable (text : String) : Prop where
  /-- The lines of a comment are their own comment. -/
  again : commentStrings (rejoined text) = commentStrings text
  /-- They are what is copied from the source text of the comment, however deep it stands. -/
  copied : ∀ level, ∀ opening ∈ ["/**", "/*"],
    commentText (joined (commentBlock level opening text)) = rejoined text
  /-- The copy is written like the original, wherever it is put. -/
  anywhere : ∀ level opening,
    commentBlock level opening (rejoined text) = commentBlock level opening text
  doc : ∀ (f : Forest) d x level, f.get? d = some x → x.comments.doc = some text →
    WrittenAlike f (f.after [.setDoc d (commentText (joined (commentBlock level "/**" text)))])
  block : ∀ (f : Forest) d x level, f.get? d = some x → x.comments.block = some text →
    WrittenAlike f (f.after [.setBlock d (commentText (joined (commentBlock level "/*" text)))])

/-- Making lines of a comment is idempotent, and source text does not show it made twice. -/
theorem comments_reusable (text : String) : Reusable text := by
  have hopening : ∀ opening ∈ ["/**", "/*"], Unbroken opening.toList := by
    intro opening ho
    rcases List.mem_cons.mp ho with rfl | ho
    · exact ⟨by decide, by decide⟩
    · obtain rfl := List.mem_singleton.mp ho
      exact ⟨by decide, by decide⟩
  have hcopied : ∀ level, ∀ opening ∈ ["/**", "/*"],
      commentText (joined (commentBlock level opening text)) = rejoined text :=
    fun level opening ho => commentText_commentBlock level text (hopening opening ho)
  refine ⟨commentStrings_rejoined text, hcopied, fun level opening =>
    commentBlock_rejoined level opening text, ?_, ?_⟩
  · intro f d x level hx hdoc
    rw [hcopied level "/**" (by simp)]
    refine (recommented_of_comment hx (fun c => { c with doc := some (rejoined text) })
      fun n => ?_).writtenAlike
    simp [commentLines, hdoc, commentBlock_rejoined]
  · intro f d x level hx hblock
    rw [hcopied level "/*" (by simp)]
    refine (recommented_of_comment hx (fun c => { c with block := some (rejoined text) })
      fun n => ?_).writtenAlike
    simp [commentLines, hblock, commentBlock_rejoined]

/-- A carriage return within a line stays where it is, one at its end does not. -/
example : rejoined "\n\u3000a\rb\r\r\n\n  c \n" = "a\rb\n\nc" := by decide +kernel

end Source

end DeclForest
