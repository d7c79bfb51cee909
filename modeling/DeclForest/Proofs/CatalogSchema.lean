import DeclForest.Proofs.CatalogJson
import DeclForest.Proofs.JsonValues

/-!
The records of a catalog slot by slot. Whatever record is read, its slots are read one by one, each
in a way of its own, and the parts are put together at the end; this is the reading of catalogs, of
types and of members alike, so that a change in one slot is seen in the part of that slot only.
-/

namespace DeclForest.Catalog

open Json

inductive Slot where
  | types | members
  | qualifiedName | kind | superclass | interfaces
  | declaringType | name | memberKind | modifiers
  deriving DecidableEq, Repr

def Slot.key : Slot → String
  | types => "types"
  | members => "members"
  | qualifiedName => "qualified_name"
  | kind | memberKind => "kind"
  | superclass => "superclass"
  | interfaces => "interfaces"
  | declaringType => "declaring_type"
  | name => "name"
  | modifiers => "modifiers"

def Slot.default? : Slot → Option Value
  | types | members | interfaces => some (.list [])
  | superclass => some .null
  | modifiers => some (.text (some ""))
  | qualifiedName | kind | declaringType | name | memberKind => none

inductive Shape where
  | catalog | type | member
  deriving DecidableEq, Repr

def Shape.slots : Shape → List Slot
  | catalog => [.types, .members]
  | type => [.qualifiedName, .kind, .superclass, .interfaces]
  | member => [.declaringType, .name, .memberKind, .modifiers]

def Shape.keys (shape : Shape) : List String := shape.slots.map Slot.key

inductive Part where
  | text (s : String)
  | kind (k : ExternalKind)
  | memberKind (k : MemberKind)
  | modifiers (m : Modifiers)
  | type (t : ExternalType)
  | superclass (t : Option ExternalType)
  | types (ts : List ExternalType)
  | member (m : ExternalMember)
  | members (ms : List ExternalMember)
  | catalog (c : Catalog)

def Slot.read (n : Nat) : Slot → Option Value → Option Part
  | types, v => (orElse [] (items jsonFormat (typeOf jsonFormat) n) v).map .types
  | members, v => (orElse [] (items jsonFormat (memberOf jsonFormat) n) v).map .members
  | qualifiedName, v | name, v => (v.bind Value.text?).map .text
  | kind, v => (v.bind (kindOf jsonFormat n)).map .kind
  | superclass, v =>
    ((orElse none jsonFormat.optional v).bind (·.mapM (typeOf jsonFormat n))).map .superclass
  | interfaces, v => (orElse [] (items jsonFormat (typeOf jsonFormat) n) v).map .types
  | declaringType, v => (v.bind (typeOf jsonFormat n)).map .type
  | memberKind, v => (v.bind (memberKindOf jsonFormat n)).map .memberKind
  | modifiers, v => (orElse .empty (modifiersOf jsonFormat) v).map .modifiers

def build : List Part → Option Part
  | [.types ts, .members ms] => some (.catalog ⟨ts, ms⟩)
  | [.text name, .kind kind, .superclass super, .types faces] =>
    some (.type ⟨name, kind, super, faces⟩)
  | [.type declaring, .text name, .memberKind kind, .modifiers m] =>
    some (.member ⟨declaring, name, kind, m⟩)
  | _ => none

def Shape.read : Shape → Nat → Value → Option Part
  | catalog, n, v => (ofNode jsonFormat n v).map .catalog
  | type, n, v => (typeOf jsonFormat n v).map .type
  | member, n, v => (memberOf jsonFormat n v).map .member

def readSlots (n : Nat) (content : Slot → Option Value) (slots : List Slot) :
    Option (List Part) :=
  slots.mapM fun slot => Slot.read n slot (content slot)

theorem read_zero (shape : Shape) (v : Value) : shape.read 0 v = none := by
  cases shape <;> rfl

/-- What a value has in each slot of a record that it is read as. -/
def Shape.Presents (shape : Shape) (v : Value) (content : Slot → Option Value) : Prop :=
  v.record? shape.keys = some (shape.slots.map content)

theorem mapM_cons_some {α β : Type} {f : α → Option β} {a : α} {as : List α} :
    (a :: as).mapM f = (f a).bind fun b => (as.mapM f).map (b :: ·) := by
  rw [List.mapM_cons]
  cases f a <;> [rfl; cases as.mapM f <;> rfl]

theorem read_catalog {n : Nat} {v : Value} {types members : Option Value}
    (h : v.record? catalogKeys = some [types, members]) :
    Shape.catalog.read (n + 1) v = (Slot.types.read n types).bind fun ts =>
      (Slot.members.read n members).bind fun ms => build [ts, ms] := by
  have hrecord : jsonFormat.record (n + 1) catalogKeys v = some [types, members] := by
    simp [jsonFormat, h]
  rw [Shape.read, ofNode, hrecord]
  simp only [Slot.read, Option.bind_eq_bind, Option.bind_some, Nat.add_sub_cancel]
  cases orElse [] (items jsonFormat (typeOf jsonFormat) n) types with
  | none => rfl
  | some ts =>
    cases orElse [] (items jsonFormat (memberOf jsonFormat) n) members <;> rfl

theorem typeWith_eq {n : Nat} {superclassOf interfaceOf : Value → Option ExternalType} {v : Value}
    {name kind : Value} {superclass faces : Option Value}
    (hv : v.record? typeKeys = some [some name, some kind, superclass, faces]) :
    typeWith jsonFormat n superclassOf interfaceOf v = name.text?.bind fun name =>
      (kindOf jsonFormat n kind).bind fun kind =>
        ((orElse none jsonFormat.optional superclass).bind (·.mapM superclassOf)).bind
          fun superclass =>
            ((orElse [] (jsonFormat.list n) faces).bind (·.mapM interfaceOf)).map
              fun faces => ⟨name, kind, superclass, faces⟩ := by
  have hrecord : jsonFormat.record (n + 1) typeKeys v =
      some [some name, some kind, superclass, faces] := by
    simp [jsonFormat, hv]
  rw [typeWith, hrecord]
  simp only [Option.bind_assoc, Option.map_eq_bind]
  rfl

theorem read_type {n : Nat} {v : Value} {name kind superclass faces : Option Value}
    (h : v.record? typeKeys = some [name, kind, superclass, faces]) :
    Shape.type.read (n + 1) v = (Slot.qualifiedName.read n name).bind fun name =>
      (Slot.kind.read n kind).bind fun kind =>
        (Slot.superclass.read n superclass).bind fun superclass =>
          (Slot.interfaces.read n faces).bind fun faces =>
            build [name, kind, superclass, faces] := by
  have hrecord : jsonFormat.record (n + 1) typeKeys v = some [name, kind, superclass, faces] := by
    simp [jsonFormat, h]
  have hfaces : ((orElse [] (jsonFormat.list n) faces).bind
      (·.mapM (typeOf jsonFormat (n - 1)))) =
      orElse [] (items jsonFormat (typeOf jsonFormat) n) faces := by
    cases faces <;> rfl
  rw [Shape.read, typeOf_succ]
  cases name with
  | none =>
    rw [typeWith, hrecord]
    rfl
  | some name =>
    cases kind with
    | none =>
      rw [typeWith, hrecord]
      simp only [Slot.read, Option.bind_some]
      cases name.text? <;> rfl
    | some kind =>
      rw [typeWith_eq h, hfaces]
      simp only [Slot.read, Option.bind_some]
      cases name.text? with
      | none => rfl
      | some name =>
        cases kindOf jsonFormat n kind with
        | none => rfl
        | some kind =>
          simp only [Option.bind_some, Option.map_some]
          cases (orElse none jsonFormat.optional superclass).bind
              (·.mapM (typeOf jsonFormat n)) with
          | none => rfl
          | some superclass =>
            cases orElse [] (items jsonFormat (typeOf jsonFormat) n) faces <;> rfl

theorem read_member {n : Nat} {v : Value} {declaring name kind modifiers : Option Value}
    (h : v.record? memberKeys = some [declaring, name, kind, modifiers]) :
    Shape.member.read (n + 1) v = (Slot.declaringType.read n declaring).bind fun declaring =>
      (Slot.name.read n name).bind fun name =>
        (Slot.memberKind.read n kind).bind fun kind =>
          (Slot.modifiers.read n modifiers).bind fun modifiers =>
            build [declaring, name, kind, modifiers] := by
  have hrecord : jsonFormat.record (n + 1) memberKeys v =
      some [declaring, name, kind, modifiers] := by
    simp [jsonFormat, h]
  rw [Shape.read, memberOf, hrecord]
  cases declaring with
  | none => rfl
  | some declaring =>
    cases name with
    | none =>
      simp only [Slot.read, Option.bind_some]
      cases typeOf jsonFormat n declaring <;> rfl
    | some name =>
      cases kind with
      | none =>
        simp only [Slot.read, Option.bind_some]
        cases typeOf jsonFormat n declaring with
        | none => rfl
        | some declaring => cases name.text? <;> rfl
      | some kind =>
        simp only [Slot.read, Option.bind_some, Option.bind_eq_bind]
        cases typeOf jsonFormat n declaring with
        | none => rfl
        | some declaring =>
          have hname : jsonFormat.text name = name.text? := rfl
          rw [hname]
          cases name.text? with
          | none => rfl
          | some name =>
            cases memberKindOf jsonFormat n kind with
            | none => rfl
            | some kind => cases orElse .empty (modifiersOf jsonFormat) modifiers <;> rfl

theorem length_of_mapM {α β : Type} {f : α → Option β} {as : List α} {bs : List β}
    (h : as.mapM f = some bs) : bs.length = as.length := by
  induction as generalizing bs with
  | nil =>
    obtain rfl := Option.some.inj h
    rfl
  | cons a as ih =>
    rw [mapM_cons_some] at h
    obtain ⟨b, -, h⟩ := Option.bind_eq_some_iff.mp h
    obtain ⟨rest, hrest, rfl⟩ := Option.map_eq_some_iff.mp h
    rw [List.length_cons, List.length_cons, ih hrest]

theorem length_of_record? {keys : List String} {v : Value} {values : List (Option Value)}
    (h : v.record? keys = some values) : values.length = keys.length := by
  cases v with
  | object fields =>
    obtain ⟨named, -, h⟩ := Option.bind_eq_some_iff.mp h
    exact length_of_mapM h
  | list items =>
    simp only [Value.record?] at h
    split at h
    · obtain rfl := Option.some.inj h
      simp
      omega
    · simp at h
  | _ => simp [Value.record?] at h

/-- What a record has is what it has in each of its slots. -/
theorem Shape.exists_presents {shape : Shape} {v : Value} {values : List (Option Value)}
    (h : v.record? shape.keys = some values) : ∃ content, shape.Presents v content := by
  have hlength := length_of_record? h
  cases shape with
  | catalog =>
    obtain ⟨types, members, rfl⟩ := List.length_eq_two.mp hlength
    exact ⟨fun | .types => types | _ => members, h⟩
  | type =>
    obtain ⟨a, b, c, d, rfl⟩ : ∃ a b c d, values = [a, b, c, d] := by
      match values, hlength with
      | [a, b, c, d], _ => exact ⟨a, b, c, d, rfl⟩
    exact ⟨fun | .qualifiedName => a | .kind => b | .superclass => c | _ => d, h⟩
  | member =>
    obtain ⟨a, b, c, d, rfl⟩ : ∃ a b c d, values = [a, b, c, d] := by
      match values, hlength with
      | [a, b, c, d], _ => exact ⟨a, b, c, d, rfl⟩
    exact ⟨fun | .declaringType => a | .name => b | .memberKind => c | _ => d, h⟩

/-- A record is read slot by slot. -/
theorem Shape.Presents.read_eq {shape : Shape} {v : Value} {content : Slot → Option Value}
    (h : shape.Presents v content) (n : Nat) : shape.read (n + 1) v =
      (readSlots n content shape.slots).bind build := by
  cases shape with
  | catalog =>
    rw [read_catalog h]
    simp [readSlots, Shape.slots, Option.bind_assoc]
  | type =>
    rw [read_type h]
    simp [readSlots, Shape.slots, Option.bind_assoc]
  | member =>
    rw [read_member h]
    simp [readSlots, Shape.slots, Option.bind_assoc]

theorem Shape.read_of_record? {shape : Shape} {v : Value} (h : v.record? shape.keys = none)
    (n : Nat) : shape.read n v = none := by
  cases n with
  | zero => exact read_zero shape v
  | succ n =>
    have hrecord : ∀ keys, shape.keys = keys → jsonFormat.record (n + 1) keys v = none := by
      rintro keys rfl
      simp [jsonFormat, h]
    cases shape with
    | catalog =>
      rw [Shape.read, ofNode, hrecord catalogKeys rfl]
      rfl
    | type =>
      rw [Shape.read, typeOf_succ, typeWith, hrecord typeKeys rfl]
      rfl
    | member =>
      rw [Shape.read, memberOf, hrecord memberKeys rfl]
      rfl

theorem Shape.read_eq_some_iff {shape : Shape} {n : Nat} {v : Value} {part : Part} :
    shape.read (n + 1) v = some part ↔ ∃ content, shape.Presents v content ∧
      (readSlots n content shape.slots).bind build = some part := by
  constructor
  · intro h
    cases hv : v.record? shape.keys with
    | none => simp [Shape.read_of_record? hv] at h
    | some values =>
      obtain ⟨content, hcontent⟩ := Shape.exists_presents hv
      exact ⟨content, hcontent, by rw [← hcontent.read_eq, h]⟩
  · rintro ⟨content, hcontent, h⟩
    rw [hcontent.read_eq, h]

abbrev Fields := List (Option String × Value)

variable {shape : Shape} {slot other : Slot} {content : Slot → Option Value} {fields : Fields}
  {items : List Value} {n : Nat}

theorem Shape.eq_of_key_eq (h : slot ∈ shape.slots) (h' : other ∈ shape.slots)
    (hkey : slot.key = other.key) : slot = other := by
  have hall : ∀ a ∈ shape.slots, ∀ b ∈ shape.slots, a.key = b.key → a = b := by
    cases shape <;> decide
  exact hall slot h other h' hkey

theorem Shape.nodup_slots (shape : Shape) : shape.slots.Nodup := by
  cases shape <;> decide

theorem mapM_named?_eq_some_iff {named : List (String × Value)} :
    fields.mapM Value.named? = some named ↔ fields = named.map fun f => (some f.1, f.2) := by
  induction fields generalizing named with
  | nil => cases named <;> simp
  | cons field fields ih =>
    obtain ⟨key, v⟩ := field
    rw [mapM_cons_some]
    cases key with
    | none => cases named <;> simp [Value.named?]
    | some key =>
      cases named with
      | nil => cases h : fields.mapM Value.named? <;> simp [Value.named?]
      | cons f named =>
        obtain ⟨key', v'⟩ := f
        simp only [Value.named?, Option.map_some, Option.bind_some, Option.map_eq_some_iff,
          List.map_cons, List.cons.injEq, Prod.mk.injEq, Option.some.injEq, ih]
        constructor
        · rintro ⟨rest, rfl, ⟨rfl, rfl⟩, rfl⟩
          exact ⟨⟨rfl, rfl⟩, rfl⟩
        · rintro ⟨⟨rfl, rfl⟩, rfl⟩
          exact ⟨named, rfl, ⟨rfl, rfl⟩, rfl⟩

theorem only?_eq_some_iff {named : List (String × Value)} {key : String} {o : Option Value} :
    Value.only? named key = some o ↔
      (named.filter fun f => f.1 == key).map Prod.snd = o.toList := by
  unfold Value.only?
  split
  · rename_i h
    rw [h]
    cases o <;> simp
  · rename_i field h
    rw [h]
    cases o <;> simp
  · rename_i hnil hone
    constructor
    · simp
    · intro h
      cases o with
      | none => exact absurd (List.map_eq_nil_iff.mp h) hnil
      | some v =>
        obtain ⟨f, hf, -⟩ := List.map_eq_singleton_iff.mp h
        exact absurd hf (hone f)

theorem mapM_eq_some_map_iff {α β γ : Type} {f : β → Option γ} {g : α → β} {k : α → γ}
    {as : List α} : (as.map g).mapM f = some (as.map k) ↔ ∀ a ∈ as, f (g a) = some (k a) := by
  induction as with
  | nil => simp
  | cons a as ih =>
    rw [List.map_cons, mapM_cons_some, List.forall_mem_cons, ← ih]
    cases h : f (g a) with
    | none => simp
    | some b => cases (as.map g).mapM f <;> simp

def valuesOf (key : String) (fields : Fields) : List Value :=
  (fields.filter fun f => f.1 = some key).map Prod.snd

theorem valuesOf_named (key : String) (named : List (String × Value)) :
    valuesOf key (named.map fun f => (some f.1, f.2)) =
      (named.filter fun f => f.1 == key).map Prod.snd := by
  simp [valuesOf, List.filter_map, Function.comp_def, beq_eq_decide]

theorem exists_named (h : ∀ field ∈ fields, field.1 ≠ none) :
    ∃ named : List (String × Value), fields = named.map fun f => (some f.1, f.2) := by
  induction fields with
  | nil => exact ⟨[], rfl⟩
  | cons field fields ih =>
    obtain ⟨named, rfl⟩ := ih fun f hf => h f (List.mem_cons_of_mem field hf)
    obtain ⟨key, v⟩ := field
    obtain ⟨key, rfl⟩ := Option.ne_none_iff_exists'.mp (h _ List.mem_cons_self)
    exact ⟨(key, v) :: named, rfl⟩

/-- An object has in a slot what its one field with the key of the slot has. -/
theorem Shape.presents_object_iff : shape.Presents (.object fields) content ↔
    (∀ field ∈ fields, field.1 ≠ none) ∧
      ∀ slot ∈ shape.slots, valuesOf slot.key fields = (content slot).toList := by
  unfold Shape.Presents Shape.keys Value.record?
  rw [Option.bind_eq_some_iff]
  constructor
  · rintro ⟨named, hnamed, h⟩
    obtain rfl := mapM_named?_eq_some_iff.mp hnamed
    constructor
    · intro field hfield
      obtain ⟨f, -, rfl⟩ := List.mem_map.mp hfield
      exact Option.some_ne_none f.1
    · intro slot hslot
      rw [valuesOf_named]
      exact only?_eq_some_iff.mp (mapM_eq_some_map_iff.mp h slot hslot)
  · rintro ⟨hkeys, h⟩
    obtain ⟨named, rfl⟩ := exists_named hkeys
    refine ⟨named, mapM_named?_eq_some_iff.mpr rfl, mapM_eq_some_map_iff.mpr fun slot hslot => ?_⟩
    rw [only?_eq_some_iff, ← valuesOf_named]
    exact h slot hslot

/-- A list has in a slot what stands at its place. -/
theorem Shape.presents_list_iff : shape.Presents (.list items) content ↔
    items.length ≤ shape.slots.length ∧
      ∀ (i : Nat) slot, shape.slots[i]? = some slot → content slot = items[i]? := by
  have hlength : shape.keys.length = shape.slots.length := List.length_map _
  have hrecord : (Value.list items).record? shape.keys =
      if items.length ≤ shape.slots.length then
        some (items.map some ++ List.replicate (shape.slots.length - items.length) none)
      else none := by
    rw [← hlength]
    rfl
  rw [Shape.Presents, hrecord]
  by_cases hle : items.length ≤ shape.slots.length
  · rw [if_pos hle, Option.some.injEq]
    refine Iff.trans ?_ (and_iff_right hle).symm
    constructor
    · intro h i slot hslot
      have hi := congrArg (·[i]?) h
      simp only [List.getElem?_append, List.length_map, List.getElem?_map, hslot,
        Option.map_some] at hi
      split at hi
      · rename_i hlt
        rw [List.getElem?_eq_getElem hlt] at hi ⊢
        simpa using hi.symm
      · rename_i hlt
        rw [List.getElem?_eq_none (by omega)]
        rw [List.getElem?_replicate] at hi
        split at hi
        · simpa using hi.symm
        · simp at hi
    · intro h
      apply List.ext_getElem?
      intro i
      rw [List.getElem?_map]
      cases hslot : shape.slots[i]? with
      | none =>
        have hi := List.getElem?_eq_none_iff.mp hslot
        rw [List.getElem?_eq_none]
        · rfl
        · simp
          omega
      | some slot =>
        have hi := (List.getElem?_eq_some_iff.mp hslot).1
        rw [Option.map_some, h i slot hslot, List.getElem?_append, List.length_map]
        split
        · rename_i hlt
          rw [List.getElem?_map, List.getElem?_eq_getElem hlt]
          rfl
        · rename_i hlt
          have hnone : items[i]? = none := List.getElem?_eq_none (by omega)
          rw [hnone, List.getElem?_replicate, if_pos (by omega)]
  · simp [hle]

end DeclForest.Catalog
