import DeclForest.Source.Render

/-!
What source text shows of a declaration. Of a descriptor it shows the names; who issued the
descriptor, and the superclass and the interfaces that its reference records, stand nowhere in the
text. `shown` replaces all that by a fixed choice, so that two descriptors have one `shown` exactly
if they have the same names and the same key, and rendering does not see the replacement.
-/

namespace DeclForest

/-- The kind of a defined type is not shown where the type is used. -/
def Referent.shown : Referent → Referent
  | primitive p => primitive p
  | external t => external ⟨t.qualifiedName, t.kind, none, []⟩
  | defined id name _ => defined id name .classKind

def Descriptor.shown (d : Descriptor) : Descriptor := ⟨0, d.referent.shown⟩

namespace Descriptor

@[simp] theorem simpleName_shown (d : Descriptor) : d.shown.simpleName = d.simpleName := by
  rcases d with ⟨issuer, _ | _ | _⟩ <;> rfl

@[simp] theorem display_shown (d : Descriptor) : d.shown.display = d.display := by
  rcases d with ⟨issuer, _ | _ | _⟩ <;> rfl

end Descriptor

def Parameter.shown (p : Parameter) : Parameter := { p with type := p.type.shown }

@[simp] theorem Parameter.display_shown (p : Parameter) : p.shown.display = p.display := by
  unfold display shown
  rw [Descriptor.simpleName_shown]

def Field.shown (f : Field) : Field := { f with type := f.type.shown }

def Method.shown (m : Method) : Method :=
  { m with
    returns := m.returns.shown
    parameters := m.parameters.map Parameter.shown
    throws := m.throws.map Descriptor.shown }

def Constructor.shown (c : Constructor) : Constructor :=
  { c with
    parameters := c.parameters.map Parameter.shown
    throws := c.throws.map Descriptor.shown }

def TypeDefinition.shown (t : TypeDefinition) : TypeDefinition :=
  { t with
    superclass := t.superclass.map Descriptor.shown
    superInterfaces := t.superInterfaces.map Descriptor.shown
    issuer := none }

namespace Content

def shown : Content → Content
  | field f => field f.shown
  | method m => method m.shown
  | constructor c => constructor c.shown
  | type t => type t.shown
  | typeImport target => typeImport target.shown
  | staticImport target member => staticImport target.shown member
  | other => other

@[simp] theorem isField_shown (c : Content) : c.shown.isField = c.isField := by
  cases c <;> rfl

@[simp] theorem type?_shown (c : Content) : c.shown.type? = c.type?.map TypeDefinition.shown := by
  cases c <;> rfl

@[simp] theorem describe_shown (c : Content) (id : DeclId) :
    c.shown.describe id = c.describe id := by
  cases c with
  | typeImport target =>
    show "import of `" ++ target.shown.display ++ "`" = _
    rw [Descriptor.display_shown]
    rfl
  | staticImport target member =>
    show "static import of `" ++ target.shown.display ++ "." ++ member ++ "`" = _
    rw [Descriptor.display_shown]
    rfl
  | _ => rfl

end Content

/-- Two declarations show the same if they are of one kind with one owner and the same comments, and
their descriptors agree in names and key. -/
def Declaration.shown (x : Declaration) : Declaration := { x with content := x.content.shown }

namespace Source

variable (level : Nat)

@[simp] theorem typeList_shown (types : List Descriptor) :
    typeList (types.map Descriptor.shown) = typeList types := by
  simp [typeList, Function.comp_def]

@[simp] theorem parameterList_shown (parameters : List Parameter) :
    parameterList (parameters.map Parameter.shown) = parameterList parameters := by
  simp [parameterList, Function.comp_def]

@[simp] theorem throwsClause_shown (thrown : List Descriptor) :
    throwsClause (thrown.map Descriptor.shown) = throwsClause thrown := by
  simp [throwsClause]

theorem fieldLine_shown (f : Field) : fieldLine level f.shown = fieldLine level f := by
  simp [fieldLine, Field.shown]

theorem methodLines_shown (inInterface : Bool) (m : Method) :
    methodLines level inInterface m.shown = methodLines level inInterface m := by
  have hhead : methodHead m.shown = methodHead m := by simp [methodHead, Method.shown]
  unfold methodLines
  rw [hhead]
  rfl

theorem constructorLines_shown (typeName : String) (c : Constructor) :
    constructorLines level typeName c.shown = constructorLines level typeName c := by
  simp [constructorLines, Constructor.shown]

theorem typeHead_shown (t : TypeDefinition) : typeHead t.shown = typeHead t := by
  simp [typeHead, TypeDefinition.shown, Function.comp_def]

variable (f : Forest)

theorem importName_shown (target : Descriptor) :
    importName f target.shown = importName f target := by
  rcases target with ⟨issuer, _ | _ | _⟩ <;> rfl

theorem importText_shown (target : Descriptor) :
    importText f target.shown = importText f target := by
  rw [importText, importText, importName_shown]

theorem staticImportText_shown (target : Descriptor) (member : String) :
    staticImportText f target.shown member = staticImportText f target member := by
  rw [staticImportText, staticImportText, importName_shown]

theorem typeImportText?_shown (c : Content) :
    typeImportText? f c.shown = typeImportText? f c := by
  cases c with
  | typeImport target => simp only [Content.shown, typeImportText?, importText_shown]
  | _ => rfl

theorem staticImportText?_shown (c : Content) :
    staticImportText? f c.shown = staticImportText? f c := by
  cases c with
  | staticImport target member =>
    simp only [Content.shown, staticImportText?, staticImportText_shown]
  | _ => rfl

/-- A content is written as what it shows. -/
theorem contentLines_shown (render : DeclId → Except Fault (List Line)) (id : DeclId)
    (c : Content) : contentLines f render id level c.shown = contentLines f render id level c := by
  cases c with
  | field x => simp only [Content.shown, contentLines, fieldLine_shown]
  | method m => simp only [Content.shown, contentLines, methodLines_shown]
  | constructor c => simp only [Content.shown, contentLines, constructorLines_shown]
  | type t =>
    simp only [Content.shown, contentLines, typeHead_shown]
    rfl
  | typeImport target => simp only [Content.shown, contentLines, importText_shown]
  | staticImport target member => simp only [Content.shown, contentLines, staticImportText_shown]
  | _ => rfl

end Source

end DeclForest
