import DeclForest.Proofs.Composition

/-!
A forest without its comments. Every look-up answers the same in it, so a declaration is written as
before, with the lines of the comments left out.
-/

namespace DeclForest

namespace Forest

def bare (f : Forest) : Forest :=
  { f with decls := f.decls.map fun x => { x with comments := .none } }

variable (f : Forest) (id : DeclId)

@[simp] theorem get?_bare : f.bare.get? id =
    (f.get? id).map fun x => { x with comments := .none } := by
  simp [get?, bare]

@[simp] theorem size_decls_bare : f.bare.decls.size = f.decls.size := by simp [bare]

@[simp] theorem owner?_bare : f.bare.owner? id = f.owner? id := by
  unfold owner?
  rw [get?_bare]
  cases f.get? id <;> rfl

@[simp] theorem describe_bare : f.bare.describe id = f.describe id := by
  unfold describe
  rw [get?_bare]
  cases f.get? id <;> rfl

theorem declaration_bare : f.bare.declaration id =
    (f.declaration id).map fun x => { x with comments := .none } := by
  unfold declaration
  rw [get?_bare]
  cases f.get? id <;> rfl

@[simp] theorem typeDefinition_bare : f.bare.typeDefinition id = f.typeDefinition id := by
  unfold typeDefinition
  rw [declaration_bare, describe_bare]
  cases f.declaration id <;> rfl

@[simp] theorem ancestors_bare : f.bare.ancestors id = f.ancestors id := by
  unfold ancestors
  rw [size_decls_bare]
  exact ancestorsWithin_congr fun x _ => f.owner?_bare x

@[simp] theorem nestingLevel_bare : f.bare.nestingLevel id = f.nestingLevel id := by
  unfold nestingLevel
  rw [ancestors_bare]

@[simp] theorem enclosingUnit?_bare : f.bare.enclosingUnit? id = f.enclosingUnit? id := by
  have howner : f.bare.owner? = f.owner? := funext f.owner?_bare
  unfold enclosingUnit?
  rw [ancestors_bare, howner]

@[simp] theorem packageName?_bare (u : UnitId) : f.bare.packageName? u = f.packageName? u := by
  have hunit : f.bare.unit? u = f.unit? u := rfl
  unfold packageName?
  rw [hunit]
  cases (f.unit? u).bind CompilationUnit.package with
  | none => rfl
  | some p =>
    rw [Option.bind_some, Option.bind_some, get?_bare]
    cases f.get? p with
    | none => rfl
    | some x =>
      rcases x with ⟨c, o, k⟩
      cases c <;> rfl

@[simp] theorem qualifiedName_bare : f.bare.qualifiedName id = f.qualifiedName id := by
  have htypes : f.bare.typeDefinition = f.typeDefinition := funext f.typeDefinition_bare
  have hpackage : f.bare.packageName? = f.packageName? := funext f.packageName?_bare
  unfold qualifiedName
  rw [ancestors_bare, enclosingUnit?_bare, htypes, hpackage]

end Forest

namespace Source

open Forest

variable {f : Forest} {P : Comments → Prop} {ls rest plain others : List Line}

inductive Commented (P : Comments → Prop) : List Line → List Line → Prop where
  | nil : Commented P [] []
  | line (l : Line) {ls plain : List Line} : Commented P ls plain →
      Commented P (l :: ls) (l :: plain)
  | comments (level : Nat) {c : Comments} {ls plain : List Line} : P c → Commented P ls plain →
      Commented P (commentLines level c ++ ls) plain

theorem Commented.refl : (ls : List Line) → Commented P ls ls
  | [] => .nil
  | l :: ls => .line l (refl ls)

theorem Commented.append (h : Commented P ls plain) (hrest : Commented P rest others) :
    Commented P (ls ++ rest) (plain ++ others) := by
  induction h with
  | nil => exact hrest
  | line l _ ih => exact .line l ih
  | comments level hc _ ih =>
    rw [List.append_assoc]
    exact .comments level hc ih

inductive SameBut (P : Comments → Prop) :
    Except Fault (List Line) → Except Fault (List Line) → Prop where
  | ok {ls plain : List Line} : Commented P ls plain → SameBut P (.ok ls) (.ok plain)
  | error (fault : Fault) : SameBut P (.error fault) (.error fault)

theorem SameBut.refl (r : Except Fault (List Line)) : SameBut P r r := by
  cases r with
  | error fault => exact .error fault
  | ok ls => exact .ok (.refl ls)

theorem SameBut.bind {a b : Except Fault (List Line)}
    {next next' : List Line → Except Fault (List Line)} (h : SameBut P a b)
    (hn : ∀ ls plain, Commented P ls plain → SameBut P (next ls) (next' plain)) :
    SameBut P (a >>= next) (b >>= next') := by
  cases h with
  | ok hc => exact hn _ _ hc
  | error fault => exact .error fault

theorem importName_bare (f : Forest) (target : Descriptor) :
    importName f.bare target = importName f target := by
  unfold importName
  split <;> simp

theorem memberLines_bare {render render' : DeclId → Except Fault (List Line)} {ids : List DeclId}
    (h : ∀ m ∈ ids, SameBut P (render m) (render' m)) (before : Option Bool) :
    SameBut P (memberLines f render before ids) (memberLines f.bare render' before ids) := by
  induction ids generalizing before with
  | nil => exact .ok .nil
  | cons m ids ih =>
    have hrest := ih fun x hx => h x (List.mem_cons_of_mem m hx)
    rw [memberLines, memberLines, declaration_bare]
    cases f.declaration m with
    | error fault => exact .error fault
    | ok x =>
      refine (h m List.mem_cons_self).bind fun own plain hown => ?_
      refine (hrest (some x.content.isField)).bind fun others plainOthers hothers => ?_
      exact .ok (((Commented.refl (separator before x.content.isField)).append hown).append hothers)

theorem contentLines_bare {render render' : DeclId → Except Fault (List Line)} {c : Content}
    (h : ∀ m ∈ c.members, SameBut P (render m) (render' m)) (id : DeclId) (level : Nat) :
    SameBut P (contentLines f render id level c) (contentLines f.bare render' id level c) := by
  have hsame : ∀ {a b : Except Fault (List Line)}, a = b → SameBut P a b :=
    fun hab => hab ▸ .refl _
  cases c with
  | type t =>
    refine (memberLines_bare h none).bind fun members plain hmembers => ?_
    exact .ok (.line _ (hmembers.append (.refl _)))
  | method m => exact hsame (by simp [contentLines, owningType?])
  | constructor k => exact hsame (by simp [contentLines])
  | typeImport target => exact hsame (by simp [contentLines, importText, importName_bare])
  | staticImport target member =>
    exact hsame (by simp [contentLines, staticImportText, importName_bare])
  | _ => exact .refl _

/-- By induction on the bound; `P` need only hold of the comments at and below the declaration. -/
theorem linesWithin_bare (hf : f.Invariant) {n : Nat} {d : DeclId}
    (hP : ∀ e x, d ∈ f.ancestors e → f.get? e = some x → P x.comments) (level : Nat) :
    SameBut P (linesWithin f n d level) (linesWithin f.bare n d level) := by
  induction n generalizing d level with
  | zero => exact .ok .nil
  | succ n ih =>
    rw [linesWithin, linesWithin, declaration_bare]
    cases hd : f.declaration d with
    | error fault => exact .error fault
    | ok x =>
      have hx := declaration_eq_ok_iff.mp hd
      have hm : ∀ m ∈ x.content.members,
          SameBut P (linesWithin f n m (level + 1)) (linesWithin f.bare n m (level + 1)) := by
        intro m hm
        have howned := hf.ownedBy_of_mem_members hx hm
        refine ih (fun e y he => hP e y ?_) (level + 1)
        rw [hf.mem_ancestors_iff] at he ⊢
        exact he.tail howned
      refine (contentLines_bare hm d level).bind fun ls plain hls => ?_
      exact .ok (.comments level (hP d x (f.self_mem_ancestors d) hx) hls)

theorem lines_bare (hf : f.Invariant) {d : DeclId}
    (hP : ∀ e x, d ∈ f.ancestors e → f.get? e = some x → P x.comments) (level : Nat) :
    SameBut P (lines f d level) (lines f.bare d level) := by
  unfold lines
  rw [size_decls_bare]
  exact linesWithin_bare hf hP level

/-- A declaration is written without its comments as it is written with them, or not at all. -/
theorem renderDeclaration_bare (hf : f.Invariant) {d : DeclId}
    (hP : ∀ e x, d ∈ f.ancestors e → f.get? e = some x → P x.comments) :
    (∃ ls plain, Commented P ls plain ∧ renderDeclaration f d = .ok (joined ls) ∧
      renderDeclaration f.bare d = .ok (joined plain)) ∨
    ∃ fault, renderDeclaration f d = .error fault ∧ renderDeclaration f.bare d = .error fault := by
  have hlines := lines_bare hf hP (f.nestingLevel d)
  unfold renderDeclaration
  rw [declaration_bare, nestingLevel_bare]
  cases f.declaration d with
  | error fault => exact .inr ⟨fault, rfl, rfl⟩
  | ok x =>
    generalize lines f d (f.nestingLevel d) = a at hlines
    generalize lines f.bare d (f.nestingLevel d) = b at hlines
    cases hlines with
    | ok hc => exact .inl ⟨_, _, hc, rfl, rfl⟩
    | error fault => exact .inr ⟨fault, rfl, rfl⟩

end Source

end DeclForest
