import DeclForest.Forest.Basic

/-!
Source text of declarations and units. A line is indented by one tab a level; an empty one stays
empty. A text may itself hold line feeds, which are written as they are.
-/

namespace DeclForest.Source

structure Line where
  level : Nat
  text : String
  deriving DecidableEq, Repr

namespace Line

def blank : Line := ⟨0, ""⟩

def tabs (level : Nat) : String := String.ofList (List.replicate level '\t')

def toText (l : Line) : String :=
  (if l.text.isEmpty then "" else tabs l.level ++ l.text) ++ "\n"

end Line

def joined (ls : List Line) : String := String.join (ls.map Line.toText)

/-! ## Declarations that stand for themselves

Comments, fields, methods, constructors and initializer blocks as lines at a given level. Types and
imports need the forest and come after them. -/

def commentBlock (level : Nat) (opening text : String) : List Line :=
  ⟨level, opening⟩ ::
    ((Text.commentStrings text).map fun line =>
      ⟨level, if line.isEmpty then " *" else " * " ++ line⟩) ++
    [⟨level, " */"⟩]

def commentLines (level : Nat) (c : Comments) : List Line :=
  (c.doc.map (commentBlock level "/**")).getD [] ++
    (c.block.map (commentBlock level "/*")).getD [] ++
    c.lines.map fun line => ⟨level, "// " ++ line⟩

def typeList (types : List Descriptor) : String :=
  ", ".intercalate (types.map Descriptor.simpleName)

def parameterList (parameters : List Parameter) : String :=
  ", ".intercalate (parameters.map Parameter.display)

def throwsClause (thrown : List Descriptor) : String :=
  if thrown.isEmpty then "" else " throws " ++ typeList thrown

def block (level : Nat) (head : String) (statements : List String) : List Line :=
  ⟨level, if head.isEmpty then r"{" else head ++ r" {"⟩ ::
    (statements.flatMap Text.lineStrings).map (⟨level + 1, ·⟩) ++
    [⟨level, r"}"⟩]

def fieldLine (level : Nat) (f : Field) : Line :=
  let value := (f.initializer.map (" = " ++ ·)).getD ""
  ⟨level, f.modifiers.leading ++ f.type.simpleName ++ " " ++ f.name ++ value ++ ";"⟩

def methodHead (m : Method) : String :=
  m.modifiers.leading ++ m.returns.simpleName ++ " " ++ m.name ++ "(" ++
    parameterList m.parameters ++ ")" ++ throwsClause m.throws

/-- Without a body, methods of interfaces and abstract or native ones end in a semicolon. -/
def methodLines (level : Nat) (inInterface : Bool) (m : Method) : List Line :=
  match m.body with
  | some statements => block level (methodHead m) statements
  | none =>
    if inInterface || m.modifiers.contains .abstract || m.modifiers.contains .native then
      [⟨level, methodHead m ++ ";"⟩]
    else block level (methodHead m) []

def constructorLines (level : Nat) (typeName : String) (c : Constructor) : List Line :=
  block level
    (c.modifiers.leading ++ typeName ++ "(" ++ parameterList c.parameters ++ ")" ++
      throwsClause c.throws)
    c.body

def typeHead (t : TypeDefinition) : String :=
  let super := (t.superclass.map fun s => " extends " ++ s.simpleName).getD ""
  let faces := typeList t.superInterfaces
  t.modifiers.leading ++ t.kind.keyword ++ " " ++ t.name ++
    (match t.kind with
      | .classKind => super ++ if t.superInterfaces.isEmpty then "" else " implements " ++ faces
      | .interfaceKind => if t.superInterfaces.isEmpty then "" else " extends " ++ faces) ++
    r" {"

/-! ## Types, imports and units

A type writes its members one level deeper, with a blank line between two of them unless both are
fields. Nesting is bounded by the number of declarations, which bounds the descent. -/

/-- Imports of defined types are written with the name the type has at present. -/
def importName (f : Forest) (target : Descriptor) : Except Fault String :=
  match target.referent with
  | .defined id .. => f.qualifiedName id
  | _ => .ok target.display

def packageText (name : String) : String := "package " ++ name ++ ";"

def importText (f : Forest) (target : Descriptor) : Except Fault String :=
  (importName f target).map fun name => "import " ++ name ++ ";"

def staticImportText (f : Forest) (target : Descriptor) (member : String) :
    Except Fault String :=
  (importName f target).map fun name => "import static " ++ name ++ "." ++ member ++ ";"

def owningType? (f : Forest) (id : DeclId) : Except Fault (Option TypeDefinition) :=
  match f.owner? id with
  | some (.type owner) => (f.typeDefinition owner).map some
  | _ => .ok none

def separator (before : Option Bool) (isField : Bool) : List Line :=
  if before = none ∨ before = some true ∧ isField then [] else [.blank]

/-- The members of a type, each written by `render`; `before` says whether one went before and
whether it was a field. -/
def memberLines (f : Forest) (render : DeclId → Except Fault (List Line)) :
    Option Bool → List DeclId → Except Fault (List Line)
  | _, [] => .ok []
  | before, id :: rest => do
    let d ← f.declaration id
    let own ← render id
    let others ← memberLines f render (some d.content.isField) rest
    return separator before d.content.isField ++ own ++ others

def contentLines (f : Forest) (render : DeclId → Except Fault (List Line)) (id : DeclId)
    (level : Nat) : Content → Except Fault (List Line)
  | .field x => .ok [fieldLine level x]
  | .method m => do
    let owner ← owningType? f id
    return methodLines level (owner.any fun t => t.kind = .interfaceKind) m
  | .constructor c => do
    match f.owner? id with
    | some (.type owner) => return constructorLines level (← f.typeDefinition owner).name c
    | _ => throw (.detachedDeclaration (f.describe id))
  | .initializer statements => .ok (block level "" statements)
  | .staticInitializer statements => .ok (block level "static" statements)
  | .type t => do
    let members ← memberLines f render none t.members
    return ⟨level, typeHead t⟩ :: members ++ [⟨level, r"}"⟩]
  | .package name => .ok [⟨level, packageText name⟩]
  | .typeImport target => do return [⟨level, ← importText f target⟩]
  | .staticImport target member => do return [⟨level, ← staticImportText f target member⟩]

def linesWithin (f : Forest) : Nat → DeclId → Nat → Except Fault (List Line)
  | 0, _, _ => .ok []
  | n + 1, id, level => do
    let d ← f.declaration id
    let content ← contentLines f (fun m => linesWithin f n m (level + 1)) id level d.content
    return commentLines level d.comments ++ content

def lines (f : Forest) (id : DeclId) (level : Nat) : Except Fault (List Line) :=
  linesWithin f (f.decls.size + 1) id level

def renderDeclaration (f : Forest) (id : DeclId) : Except Fault String := do
  let _ ← f.declaration id
  return joined (← lines f id (f.nestingLevel id))

/-- The package of a unit and a blank line; its comments are left out, as those of imports are. -/
def packageSection (f : Forest) (unit : CompilationUnit) : Except Fault (List Line) :=
  match unit.package with
  | none => .ok []
  | some id => do
    match (← f.declaration id).content with
    | .package name => return [⟨0, packageText name⟩, .blank]
    | _ => return []

def importSection (f : Forest) (line? : Content → Except Fault (Option String))
    (ids : List DeclId) : Except Fault (List Line) := do
  let texts ← ids.filterMapM fun id => do line? (← f.declaration id).content
  return (texts.map fun text => ⟨0, text⟩) ++ if ids.isEmpty then [] else [.blank]

def typeImportText? (f : Forest) : Content → Except Fault (Option String)
  | .typeImport target => (importText f target).map some
  | _ => .ok none

def staticImportText? (f : Forest) : Content → Except Fault (Option String)
  | .staticImport target member => (staticImportText f target member).map some
  | _ => .ok none

def bodyLines (f : Forest) : List DeclId → Except Fault (List Line)
  | [] => .ok []
  | [id] => lines f id 0
  | id :: rest => do
    let own ← lines f id 0
    let others ← bodyLines f rest
    return own ++ .blank :: others

def generate (f : Forest) (u : UnitId) : Except Fault String := do
  let unit ← f.unit u
  let package ← packageSection f unit
  let imports ← importSection f (typeImportText? f) unit.imports
  let statics ← importSection f (staticImportText? f) unit.staticImports
  let body ← bodyLines f unit.types
  return joined (package ++ imports ++ statics ++ .blank :: body)

end DeclForest.Source
