import DeclForest.Proofs.Locality
import DeclForest.Proofs.Tame

/-!
The text of a unit is indented by its braces. Every writer of lines gets a level and gives lines
that start at this depth and end there; types hand their members one level more, between the brace
that opens and the one that closes them. So the level is the depth wherever lines are put together,
however deep types are nested, and the text of a unit starts and ends at depth zero.
-/

namespace DeclForest

open Text Forest

namespace Source

variable {n : Nat} {head : String}

/-- Comments stand at one depth. -/
theorem nested_commentBlock {opening text : String} (ho : Inline opening)
    (h : Lacks braces text) : Nested n (commentBlock n opening text) n := by
  have hmiddle : ∀ l ∈ blockMiddle n text, Turn n l n := by
    intro l hl
    obtain ⟨line, hline, rfl⟩ := List.mem_map.mp hl
    have hstar : Inline " * " := by decide
    split
    · exact .plain (by decide)
    · exact .plain (hstar.append (lacks_of_mem_commentStrings h hline))
  rw [commentBlock_eq, blockStart]
  exact .append (.cons (.plain ho) (.of_forall hmiddle)) (.single (.plain (by decide)))

theorem nested_commentLines {x : Declaration} (h : x.Tame) :
    Nested n (commentLines n x.comments) n := by
  have hdoc : Nested n ((x.comments.doc.map (commentBlock n "/**")).getD []) n := by
    cases hd : x.comments.doc with
    | none => exact .nil n
    | some text => exact nested_commentBlock (by decide) (h.blocks text (by simp [hd]))
  have hblock : Nested n ((x.comments.block.map (commentBlock n "/*")).getD []) n := by
    cases hb : x.comments.block with
    | none => exact .nil n
    | some text => exact nested_commentBlock (by decide) (h.blocks text (by simp [hb]))
  have hslash : Inline "// " := by decide
  refine (hdoc.append hblock).append (.of_forall fun l hl => ?_)
  obtain ⟨line, hline, rfl⟩ := List.mem_map.mp hl
  exact .plain (hslash.append (h.lineComments line hline))

/-- Statements stand one level deeper than the braces around them. -/
theorem nested_block {statements : List String} (hh : head = "" ∨ Inline head)
    (h : ∀ s ∈ statements,
      Lacks braces s ∧ ∀ line ∈ lineStrings s, line.toList.head? ≠ some '\t') :
    Nested n (block n head statements) n := by
  have hbody : ∀ l ∈ (statements.flatMap lineStrings).map (Line.mk (n + 1)),
      Turn (n + 1) l (n + 1) := by
    intro l hl
    obtain ⟨line, hline, rfl⟩ := List.mem_map.mp hl
    obtain ⟨s, hs, hline⟩ := List.mem_flatMap.mp hline
    obtain ⟨hbraces, htabs⟩ := h s hs
    cases hc : line.toList with
    | nil =>
      obtain rfl : line = "" := String.toList_eq_nil_iff.mp hc
      exact .blank _ _
    | cons c rest =>
      have htab : c ≠ '\t' := by
        rintro rfl
        exact htabs line hline (by simp [hc])
      exact .plain ⟨⟨c, rest, hc, htab⟩, lacks_of_mem_lineStrings hbraces hline⟩
  have hopen : Turn n ⟨n, if head.isEmpty then r"{" else head ++ r" {"⟩ (n + 1) := by
    rcases hh with rfl | hi
    · exact .opening n
    · simpa [hi.starts.ne_empty] using Turn.head hi
  exact .append (.cons hopen (.of_forall hbody)) (.single (.closing n))

/-- What a declaration starts with: its modifiers, then a word that a user may have left empty. -/
theorem inline_leading (m : Modifiers) {word mark : String} (hw : Lacks marks word)
    (hm : Inline mark) : Inline (m.leading ++ word ++ mark) where
  starts := hm.starts.after (by simp [m.lacks_leading.no_tab, hw.no_tab])
  lacks := by
    simp only [lacks_append_iff]
    exact ⟨⟨m.lacks_leading.breaks, hw.breaks⟩, hm.lacks⟩

theorem nested_field {x : Declaration} {f : Field} (h : x.Tame) (hc : x.content = .field f) :
    Nested n [fieldLine n f] n := by
  have hnames := h.names
  have hvalue := h.initializers
  rw [hc] at hnames hvalue
  have hname : Lacks marks f.name := hnames _ List.mem_cons_self
  have htype : Lacks marks f.type.simpleName :=
    Descriptor.lacks_simpleName fun s hs => hnames s (List.mem_cons_of_mem _ hs)
  have hassign : Lacks breaks ((f.initializer.map (" = " ++ ·)).getD "") := by
    cases hi : f.initializer with
    | none => exact lacks_empty _
    | some value =>
      have hv : Lacks breaks value := hvalue value (by simp [Content.initializers, hi])
      exact lacks_append_iff.mpr ⟨by decide, hv⟩
  have hstart := inline_leading f.modifiers htype (by decide : Inline " ")
  exact .single (.plain (((hstart.append hname.breaks).append hassign).append (by decide)))

theorem inline_methodHead {m : Method} (h : ∀ s ∈ (Content.method m).names, Lacks marks s) :
    Inline (methodHead m) := by
  simp only [Content.names, List.mem_cons, List.mem_append] at h
  have hname : Lacks marks m.name := h _ (.inl rfl)
  have hreturns : Lacks marks m.returns.simpleName :=
    Descriptor.lacks_simpleName fun s hs => h s (.inr (.inl (.inl hs)))
  have hparameters : Lacks marks (parameterList m.parameters) :=
    lacks_parameterList fun s hs => h s (.inr (.inl (.inr hs)))
  have hthrows : Lacks marks (throwsClause m.throws) :=
    lacks_throwsClause fun s hs => h s (.inr (.inr hs))
  have hstart := inline_leading m.modifiers hreturns (by decide : Inline " ")
  exact ((((hstart.append hname.breaks).append (by decide)).append hparameters.breaks).append
    (by decide)).append hthrows.breaks

theorem nested_method {x : Declaration} {m : Method} (h : x.Tame) (hc : x.content = .method m)
    (inInterface : Bool) : Nested n (methodLines n inInterface m) n := by
  have hnames := h.names
  have hbody := h.statements
  rw [hc] at hnames hbody
  have hhead := inline_methodHead hnames
  unfold methodLines
  cases hb : m.body with
  | some statements =>
    exact nested_block (.inr hhead) (by simpa [Content.statements, hb] using hbody)
  | none =>
    simp only
    split
    · exact .single (.plain (hhead.append (by decide)))
    · exact nested_block (.inr hhead) (by simp)

theorem nested_constructor {x : Declaration} {c : Constructor} {typeName : String} (h : x.Tame)
    (hc : x.content = .constructor c) (ht : Lacks marks typeName) :
    Nested n (constructorLines n typeName c) n := by
  have hnames := h.names
  have hbody := h.statements
  rw [hc] at hnames hbody
  simp only [Content.names, List.mem_append] at hnames
  have hparameters : Lacks marks (parameterList c.parameters) :=
    lacks_parameterList fun s hs => hnames s (.inl hs)
  have hthrows : Lacks marks (throwsClause c.throws) :=
    lacks_throwsClause fun s hs => hnames s (.inr hs)
  have hstart := inline_leading c.modifiers ht (by decide : Inline "(")
  exact nested_block (.inr (((hstart.append hparameters.breaks).append (by decide)).append
    hthrows.breaks)) hbody

theorem turn_typeHead {t : TypeDefinition} (h : ∀ s ∈ (Content.type t).names, Lacks marks s) :
    Turn n ⟨n, typeHead t⟩ (n + 1) := by
  simp only [Content.names, List.flatMap_append, List.mem_cons, List.mem_append] at h
  have hname : Lacks marks t.name := h _ (.inl rfl)
  have hkeyword : Lacks marks t.kind.keyword := by cases t.kind <;> decide
  have hsuper : Lacks marks ((t.superclass.map fun s => " extends " ++ s.simpleName).getD "") := by
    cases hs : t.superclass with
    | none => exact lacks_empty _
    | some super =>
      refine lacks_append_iff.mpr ⟨by decide, Descriptor.lacks_simpleName fun s hn => ?_⟩
      exact h s (.inr (.inl (by simpa [hs] using hn)))
  have hfaces : Lacks marks (typeList t.superInterfaces) :=
    lacks_typeList fun s hs => h s (.inr (.inr hs))
  have hlisted : ∀ word, Lacks marks word → Lacks marks
      (if t.superInterfaces.isEmpty then "" else word ++ typeList t.superInterfaces) := by
    intro word hw
    split
    · exact lacks_empty _
    · exact lacks_append_iff.mpr ⟨hw, hfaces⟩
  have hstart := inline_leading t.modifiers hkeyword (by decide : Inline " ")
  refine .head ((hstart.append hname.breaks).append (Lacks.breaks ?_))
  cases t.kind with
  | classKind => exact lacks_append_iff.mpr ⟨hsuper, hlisted _ (by decide)⟩
  | interfaceKind => exact hlisted _ (by decide)

end Source

/-- All that a unit is written with is tame: the declarations that it encloses, and the names of the
types that it imports, which may stand in other units. -/
structure TameIn (f : Forest) (u : UnitId) : Prop where
  declarations : ∀ d x, f.enclosingUnit? d = some u → f.get? d = some x → x.Tame
  names : ∀ t ∈ f.importedTypes u, ∀ name, f.qualifiedName t = .ok name → Lacks marks name

namespace Forest

variable {f : Forest} (h : ∀ d x, f.get? d = some x → x.Tame)

include h

theorem lacks_packageName {u : UnitId} {name : String} (hp : f.packageName? u = some name) :
    Lacks marks name := by
  unfold packageName? at hp
  split at hp
  · rename_i o k hx
    obtain rfl := Option.some.inj hp
    obtain ⟨p, -, hp⟩ := Option.bind_eq_some_iff.mp hx
    exact (h p _ hp).names _ (List.mem_singleton_self _)
  · simp at hp

theorem lacks_typeName {t : DeclId} {definition : TypeDefinition}
    (ht : f.type? t = some definition) : Lacks marks definition.name := by
  obtain ⟨o, k, hx⟩ := type?_eq_some_iff.mp ht
  exact (h t _ hx).names _ List.mem_cons_self

/-- A qualified name is made of names of types and of a package. -/
theorem Invariant.lacks_qualifiedName (hf : f.Invariant) {t : DeclId} {name : String}
    (hn : f.qualifiedName t = .ok name) : Lacks marks name := by
  cases ht : f.typeDefinition t with
  | error fault =>
    rw [qualifiedName_of_fault ht] at hn
    cases hn
  | ok definition =>
    rw [hf.qualifiedName_of_type (typeDefinition_eq_ok_iff.mp ht)] at hn
    obtain rfl := Except.ok.inj hn
    refine lacks_intercalate (by decide) fun part hpart => ?_
    rcases List.mem_append.mp hpart with hp | hp
    · obtain ⟨u, -, hp⟩ := Option.bind_eq_some_iff.mp (Option.mem_toList.mp hp)
      exact lacks_packageName h hp
    · obtain ⟨other, ho, rfl⟩ := List.mem_map.mp (List.mem_reverse.mp hp)
      obtain ⟨a, -, ha⟩ := List.mem_filterMap.mp ho
      exact lacks_typeName h ha

theorem Invariant.tameIn (hf : f.Invariant) (u : UnitId) : TameIn f u where
  declarations d x _ := h d x
  names _ _ _ := hf.lacks_qualifiedName h

end Forest

namespace Source

variable {f : Forest} {u : UnitId} {d : DeclId} {level : Nat}
  {render : DeclId → Except Fault (List Line)}

/-- Lines that are written at a level, if any are, stand at this depth. -/
def Levelled (level : Nat) (written : Except Fault (List Line)) : Prop :=
  ∀ ls, written = .ok ls → Nested level ls level

theorem levelled_memberLines {ids : List DeclId} (h : ∀ m ∈ ids, Levelled level (render m))
    (before : Option Bool) : Levelled level (memberLines f render before ids) := by
  induction ids generalizing before with
  | nil =>
    rintro ls ⟨⟩
    exact .nil level
  | cons m ids ih =>
    intro ls hls
    obtain ⟨x, -, hls⟩ := bind_eq_ok.mp hls
    obtain ⟨own, hown, hls⟩ := bind_eq_ok.mp hls
    obtain ⟨others, hothers, hls⟩ := bind_eq_ok.mp hls
    obtain rfl := Except.ok.inj hls
    have hblank : Nested level (separator before x.content.isField) level := by
      unfold separator
      split
      · exact .nil level
      · exact .single (.blank level 0)
    have hrest := ih (fun x hx => h x (List.mem_cons_of_mem m hx)) _ others hothers
    exact (hblank.append (h m List.mem_cons_self own hown)).append hrest

theorem lacks_importName (hf : f.Invariant) (h : TameIn f u) (hd : f.enclosingUnit? d = some u)
    {target : Descriptor} (hi : Imports f d target) (ht : ∀ s ∈ target.names, Lacks marks s)
    {name : String} (hn : importName f target = .ok name) : Lacks marks name := by
  unfold importName at hn
  split at hn
  · rename_i hr
    exact h.names _ (hf.mem_importedTypes hd hi hr) name hn
  · obtain rfl := Except.ok.inj hn
    exact Descriptor.lacks_display ht

theorem turn_package {name : String} (h : Lacks marks name) :
    Turn level ⟨level, packageText name⟩ level := by
  have hword : Inline "package " := by decide
  exact .plain ((hword.append h.breaks).append (by decide))

theorem turn_import (hf : f.Invariant) (h : TameIn f u) (hd : f.enclosingUnit? d = some u)
    {x : Declaration} (hx : f.get? d = some x) {target : Descriptor}
    (hc : x.content = .typeImport target) {text : String} (ht : importText f target = .ok text) :
    Turn level ⟨level, text⟩ level := by
  have hnames := (h.declarations d x hd hx).names
  rw [hc] at hnames
  obtain ⟨name, hname, rfl⟩ := map_eq_ok.mp ht
  have hi : Imports f d target := .inl ((content?_of_get? hx).trans (congrArg some hc))
  have hlacks := lacks_importName hf h hd hi hnames hname
  have hword : Inline "import " := by decide
  exact .plain ((hword.append hlacks.breaks).append (by decide))

theorem turn_staticImport (hf : f.Invariant) (h : TameIn f u) (hd : f.enclosingUnit? d = some u)
    {x : Declaration} (hx : f.get? d = some x) {target : Descriptor} {member : String}
    (hc : x.content = .staticImport target member) {text : String}
    (ht : staticImportText f target member = .ok text) : Turn level ⟨level, text⟩ level := by
  have hnames := (h.declarations d x hd hx).names
  rw [hc] at hnames
  obtain ⟨name, hname, rfl⟩ := map_eq_ok.mp ht
  have hi : Imports f d target :=
    .inr ⟨member, (content?_of_get? hx).trans (congrArg some hc)⟩
  have htarget : ∀ s ∈ target.names, Lacks marks s :=
    fun s hs => hnames s (List.mem_cons_of_mem _ hs)
  have hlacks := lacks_importName hf h hd hi htarget hname
  have hmember : Lacks marks member := hnames member List.mem_cons_self
  have hword : Inline "import static " := by decide
  exact .plain ((((hword.append hlacks.breaks).append (by decide)).append hmember.breaks).append
    (by decide))

theorem levelled_contentLines (hf : f.Invariant) (h : TameIn f u)
    (hd : f.enclosingUnit? d = some u) {x : Declaration} (hx : f.get? d = some x)
    (hm : ∀ m ∈ x.content.members, Levelled (level + 1) (render m)) :
    Levelled level (contentLines f render d level x.content) := by
  have htame : x.Tame := h.declarations d x hd hx
  intro ls hls
  cases hc : x.content with
  | field k =>
    rw [hc] at hls
    obtain rfl := Except.ok.inj hls
    exact nested_field htame hc
  | method m =>
    rw [hc] at hls
    obtain ⟨owner, -, hls⟩ := bind_eq_ok.mp hls
    obtain rfl := Except.ok.inj hls
    exact nested_method htame hc _
  | constructor c =>
    rw [hc] at hls
    simp only [contentLines] at hls
    split at hls
    · rename_i t ho
      obtain ⟨definition, ht, hls⟩ := bind_eq_ok.mp hls
      obtain rfl := Except.ok.inj hls
      have hin : f.enclosingUnit? t = some u := (hf.enclosingUnit?_of_ownedBy ho).symm.trans hd
      obtain ⟨o, k, ht⟩ := type?_eq_some_iff.mp (typeDefinition_eq_ok_iff.mp ht)
      exact nested_constructor htame hc ((h.declarations t _ hin ht).names _ List.mem_cons_self)
    · cases hls
  | initializer statements =>
    have hbody := htame.statements
    rw [hc] at hls hbody
    obtain rfl := Except.ok.inj hls
    exact nested_block (.inl rfl) hbody
  | staticInitializer statements =>
    have hbody := htame.statements
    rw [hc] at hls hbody
    obtain rfl := Except.ok.inj hls
    exact nested_block (.inr (by decide)) hbody
  | type t =>
    rw [hc] at hls hm
    obtain ⟨members, hmembers, hls⟩ := bind_eq_ok.mp hls
    obtain rfl := Except.ok.inj hls
    have hinner := levelled_memberLines hm none members hmembers
    have hnames := htame.names
    rw [hc] at hnames
    exact .append (.cons (turn_typeHead hnames) hinner) (.single (.closing level))
  | package name =>
    rw [hc] at hls
    obtain rfl := Except.ok.inj hls
    exact .single (turn_package (htame.names name (hc ▸ List.mem_singleton_self _)))
  | typeImport target =>
    rw [hc] at hls
    obtain ⟨text, htext, hls⟩ := bind_eq_ok.mp hls
    obtain rfl := Except.ok.inj hls
    exact .single (turn_import hf h hd hx hc htext)
  | staticImport target member =>
    rw [hc] at hls
    obtain ⟨text, htext, hls⟩ := bind_eq_ok.mp hls
    obtain rfl := Except.ok.inj hls
    exact .single (turn_staticImport hf h hd hx hc htext)

/-- By induction on the bound, down the tree. -/
theorem levelled_linesWithin (hf : f.Invariant) (h : TameIn f u) {n : Nat}
    (hd : f.enclosingUnit? d = some u) (level : Nat) :
    Levelled level (linesWithin f n d level) := by
  induction n generalizing d level with
  | zero =>
    rintro ls ⟨⟩
    exact .nil level
  | succ n ih =>
    intro ls hls
    obtain ⟨x, hx, hls⟩ := bind_eq_ok.mp hls
    obtain ⟨content, hcontent, hls⟩ := bind_eq_ok.mp hls
    obtain rfl := Except.ok.inj hls
    have hx := declaration_eq_ok_iff.mp hx
    have hm : ∀ m ∈ x.content.members, Levelled (level + 1) (linesWithin f n m (level + 1)) := by
      intro m hm
      have ho : f.OwnedBy m d := hf.ownedBy_of_mem_members hx hm
      exact ih ((hf.enclosingUnit?_of_ownedBy ho).trans hd) (level + 1)
    have hcomments := nested_commentLines (n := level) (h.declarations d x hd hx)
    exact hcomments.append (levelled_contentLines hf h hd hx hm content hcontent)

theorem levelled_bodyLines {ids : List DeclId} (h : ∀ t ∈ ids, Levelled 0 (lines f t 0)) :
    Levelled 0 (bodyLines f ids) := by
  induction ids with
  | nil =>
    rintro ls ⟨⟩
    exact .nil 0
  | cons t ids ih =>
    cases ids with
    | nil => exact h t List.mem_cons_self
    | cons next rest =>
      intro ls hls
      obtain ⟨own, hown, hls⟩ := bind_eq_ok.mp hls
      obtain ⟨others, hothers, hls⟩ := bind_eq_ok.mp hls
      obtain rfl := Except.ok.inj hls
      have hrest := ih (fun x hx => h x (List.mem_cons_of_mem t hx)) others hothers
      exact (h t List.mem_cons_self own hown).append (.cons (.blank 0 0) hrest)

theorem exists_of_mem_filterMapM {step : DeclId → Except Fault (Option String)}
    {ids : List DeclId} {texts : List String} (h : ids.filterMapM step = .ok texts)
    {text : String} (ht : text ∈ texts) : ∃ d ∈ ids, step d = .ok (some text) := by
  induction ids generalizing texts with
  | nil =>
    obtain rfl : [] = texts := Except.ok.inj h
    simp at ht
  | cons d ids ih =>
    rw [List.filterMapM_cons] at h
    obtain ⟨first, hfirst, h⟩ := bind_eq_ok.mp h
    cases first with
    | none =>
      obtain ⟨e, he, hs⟩ := ih h ht
      exact ⟨e, List.mem_cons_of_mem d he, hs⟩
    | some first =>
      obtain ⟨others, hothers, h⟩ := bind_eq_ok.mp h
      obtain rfl := Except.ok.inj h
      rcases List.mem_cons.mp ht with rfl | ht
      · exact ⟨d, List.mem_cons_self, hfirst⟩
      · obtain ⟨e, he, hs⟩ := ih hothers ht
        exact ⟨e, List.mem_cons_of_mem d he, hs⟩

theorem levelled_importSection {line? : Content → Except Fault (Option String)}
    {ids : List DeclId} (h : ∀ d ∈ ids, ∀ x text, f.get? d = some x →
      line? x.content = .ok (some text) → Turn 0 ⟨0, text⟩ 0) :
    Levelled 0 (importSection f line? ids) := by
  intro ls hls
  obtain ⟨texts, htexts, hls⟩ := bind_eq_ok.mp hls
  obtain rfl := Except.ok.inj hls
  have hblank : Nested 0 (if ids.isEmpty then [] else [.blank]) 0 := by
    split
    · exact .nil 0
    · exact .single (.blank 0 0)
  refine .append (.of_forall fun l hl => ?_) hblank
  obtain ⟨text, htext, rfl⟩ := List.mem_map.mp hl
  obtain ⟨d, hd, hline⟩ := exists_of_mem_filterMapM htexts htext
  obtain ⟨x, hx, hline⟩ := bind_eq_ok.mp hline
  exact h d hd x text (declaration_eq_ok_iff.mp hx) hline

theorem levelled_imports (hf : f.Invariant) (h : TameIn f u) {ids : List DeclId}
    (hin : ∀ d ∈ ids, f.enclosingUnit? d = some u) :
    Levelled 0 (importSection f (typeImportText? f) ids) := by
  refine levelled_importSection fun d hd x text hx hline => ?_
  cases hc : x.content with
  | typeImport target =>
    rw [hc] at hline
    obtain ⟨_, ht, he⟩ := map_eq_ok.mp hline
    obtain rfl := Option.some.inj he
    exact turn_import hf h (hin d hd) hx hc ht
  | _ =>
    rw [hc] at hline
    cases hline

theorem levelled_staticImports (hf : f.Invariant) (h : TameIn f u) {ids : List DeclId}
    (hin : ∀ d ∈ ids, f.enclosingUnit? d = some u) :
    Levelled 0 (importSection f (staticImportText? f) ids) := by
  refine levelled_importSection fun d hd x text hx hline => ?_
  cases hc : x.content with
  | staticImport target member =>
    rw [hc] at hline
    obtain ⟨_, ht, he⟩ := map_eq_ok.mp hline
    obtain rfl := Option.some.inj he
    exact turn_staticImport hf h (hin d hd) hx hc ht
  | _ =>
    rw [hc] at hline
    cases hline

theorem levelled_packageSection (h : TameIn f u) {unit : CompilationUnit}
    (hp : ∀ p, unit.package = some p → f.enclosingUnit? p = some u) :
    Levelled 0 (packageSection f unit) := by
  intro ls hls
  unfold packageSection at hls
  cases hpackage : unit.package with
  | none =>
    rw [hpackage] at hls
    obtain rfl := Except.ok.inj hls
    exact .nil 0
  | some p =>
    rw [hpackage] at hls
    obtain ⟨x, hx, hls⟩ := bind_eq_ok.mp hls
    split at hls
    · rename_i name hc
      obtain rfl := Except.ok.inj hls
      have htame := h.declarations p x (hp p hpackage) (declaration_eq_ok_iff.mp hx)
      have hname : Lacks marks name := htame.names name (hc ▸ List.mem_singleton_self _)
      exact .cons (turn_package hname) (.single (.blank 0 0))
    · obtain rfl := Except.ok.inj hls
      exact .nil 0

/-- Sections and types all stand at depth zero, with blank lines between them. -/
theorem indented_generate (hf : f.Invariant) (h : TameIn f u) {text : String}
    (hg : generate f u = .ok text) : Indented text := by
  obtain ⟨unit, hu, hg⟩ := bind_eq_ok.mp hg
  obtain ⟨package, hpackage, hg⟩ := bind_eq_ok.mp hg
  obtain ⟨imports, himports, hg⟩ := bind_eq_ok.mp hg
  obtain ⟨statics, hstatics, hg⟩ := bind_eq_ok.mp hg
  obtain ⟨body, hbody, hg⟩ := bind_eq_ok.mp hg
  obtain rfl := Except.ok.inj hg
  have hin : ∀ d ∈ unit.all, f.enclosingUnit? d = some u := fun d =>
    hf.enclosingUnit?_of_mem (unit_eq_ok_iff.mp hu)
  simp only [CompilationUnit.all, List.mem_append, Option.mem_toList] at hin
  have hfirst : Nested 0 package 0 :=
    levelled_packageSection h (fun p hp => hin p (by simp [hp])) package hpackage
  have hsecond : Nested 0 imports 0 :=
    levelled_imports hf h (fun d hd => hin d (by simp [hd])) imports himports
  have hthird : Nested 0 statics 0 :=
    levelled_staticImports hf h (fun d hd => hin d (by simp [hd])) statics hstatics
  have hlast : Nested 0 body 0 := levelled_bodyLines
    (fun t ht => levelled_linesWithin hf h (hin t (by simp [ht])) 0) body hbody
  exact Nested.indented (((hfirst.append hsecond).append hthird).append (.cons (.blank 0 0) hlast))

/-- Units are indented by their braces, if the texts that they are written with leave these alone;
in particular where all texts of the forest do. -/
structure IndentsByBraces (f : Forest) : Prop where
  unit : ∀ u text, TameIn f u → generate f u = .ok text → Indented text
  forest : (∀ d x, f.get? d = some x → x.Tame) →
    ∀ u text, generate f u = .ok text → Indented text

theorem reachable_indentsByBraces (h : f.Reachable) : IndentsByBraces f where
  unit _ _ htame hg := indented_generate (reachable_invariant h) htame hg
  forest htame u _ hg :=
    indented_generate (reachable_invariant h) ((reachable_invariant h).tameIn htame u) hg

/-- The sample with comments, an interface whose method takes a parameter, and statements of several
lines, one of which is empty. -/
def written : Forest := sample.after
  [.setDoc ⟨2⟩ "\n  Outer.\n\n    Not nested.\n", .addLine ⟨4⟩ "\tfirst", .setBlock ⟨6⟩ "a\nb",
   .addNew ⟨3⟩ (.method ⟨"run", ⟨0, .primitive .void⟩, .ofFlag .final,
      [⟨"p", ⟨0, .external ⟨"a.Map$Entry", .interfaceType, none, []⟩⟩, true⟩], [],
      some ["if (p == null)\n  return;\n\n;", ""]⟩),
   .addNew ⟨3⟩ (.staticInitializer ["x = 1;"]),
   .addNew ⟨2⟩ (.type (.ofName .interfaceKind "I"))]

theorem written_indentsByBraces : written.Reachable ∧ IndentsByBraces written ∧
    ∃ text, generate written ⟨0⟩ = .ok text ∧ Indented text := by
  have hreach : written.Reachable := sample_reachable.after _
  have hindents := reachable_indentsByBraces hreach
  have htame : ∀ x ∈ written.decls, x.Tame := by decide +kernel
  have hwritten : (generate written ⟨0⟩).map (fun _ => ()) = .ok () := by decide +kernel
  obtain ⟨text, htext, -⟩ := map_eq_ok.mp hwritten
  exact ⟨hreach, hindents, text, htext, hindents.forest
    (fun d x hx => htame x (Array.mem_of_getElem? hx)) ⟨0⟩ text htext⟩

end Source

end DeclForest
