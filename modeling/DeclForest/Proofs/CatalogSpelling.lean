import DeclForest.Proofs.CatalogPlaces
import Mathlib.Data.List.Nodup
import Mathlib.Logic.Relation

/-!
The many spellings of one catalog in JSON. A record of a catalog may be respelled at any depth: its
fields in another order, with fields that nobody reads, with its superclass null or left out, or as
the list of its fields. It is then read as before, and so is the catalog around it, however the
values are written down. A record with a field twice, or without one that it needs, spoils the
catalog around it instead. Each respelling is followed by what it does to the slots of the record.
-/

namespace DeclForest.Catalog

open Json

def Fields.value? (fields : Fields) (slot : Slot) : Option Value := fields.lookup (some slot.key)

inductive Respelling : Shape → Value → Value → Prop where
  | permute {shape : Shape} {fields others : Fields} : fields.Perm others →
      Respelling shape (.object fields) (.object others)
  | insert {shape : Shape} {before after : Fields} {key : String} {v : Value} :
      key ∉ shape.keys → v.Spellable →
      Respelling shape (.object (before ++ after)) (.object (before ++ (some key, v) :: after))
  | leaveOutNull {before after : Fields} :
      Respelling .type (.object (before ++ (some Slot.superclass.key, .null) :: after))
        (.object (before ++ after))
  | writeNull {before after : Fields} :
      (∀ field ∈ before ++ after, field.1 ≠ some Slot.superclass.key) →
      Respelling .type (.object (before ++ after))
        (.object (before ++ (some Slot.superclass.key, .null) :: after))
  /-- The list of the fields. A field in the middle that the object leaves out is written as its
  default; fields at the end that are left out, or are their default, may be left out. -/
  | asList {shape : Shape} {fields : Fields} {items : List Value} {written left : List Slot} :
      shape.slots = written ++ left →
      (∀ slot, written.getLast? = some slot → fields.value? slot ≠ none) →
      (∀ slot ∈ left, fields.value? slot = none ∨ fields.value? slot = slot.default?) →
      written.mapM (fun slot => (fields.value? slot).or slot.default?) = some items →
      Respelling shape (.object fields) (.list items)

/-- A record in which a key stands again, or a field is left out that the record needs. -/
inductive Spoiling : Shape → Value → Value → Prop where
  | repeatKey {shape : Shape} {slot : Slot} {before after : Fields} {v : Value} :
      slot ∈ shape.slots → (∃ field ∈ before ++ after, field.1 = some slot.key) →
      Spoiling shape (.object (before ++ after)) (.object (before ++ (some slot.key, v) :: after))
  | drop {shape : Shape} {slot : Slot} {fields : Fields} :
      slot ∈ shape.slots → slot.default? = none →
      Spoiling shape (.object fields)
        (.object (fields.filter fun field => field.1 ≠ some slot.key))

variable {shape : Shape} {slot : Slot} {content : Slot → Option Value}
  {fields others before after : Fields} {items : List Value} {v w : Value} {n : Nat} {part : Part}

/-- A default that is written is read as if it were left out, but for an empty list where no list
may be opened any more. -/
theorem read_default {d : Value} (hd : slot.default? = some d) (n : Nat) :
    slot.read n (some d) = slot.read n none ∨
      slot.read n (some d) = none ∧ n = 0 ∧ d = .list [] := by
  cases slot <;> cases hd
  case superclass => exact .inl rfl
  case modifiers =>
    have hempty : Modifiers.ofSpelling? "".toList = some .empty := by decide +kernel
    exact .inl (congrArg (·.map Part.modifiers) hempty)
  all_goals
    cases n with
    | zero => exact .inr ⟨rfl, rfl, rfl⟩
    | succ n => exact .inl rfl

theorem read_none (h : slot.default? = none) (n : Nat) : slot.read n none = none := by
  cases slot <;> first | rfl | simp [Slot.default?] at h

/-- An object lists for each slot what it has there. -/
theorem value?_eq (h : shape.Presents (.object fields) content) (hslot : slot ∈ shape.slots) :
    fields.value? slot = content slot := by
  have hhead : ∀ fields : Fields, fields.value? slot = (valuesOf slot.key fields).head? := by
    intro fields
    induction fields with
    | nil => rfl
    | cons field fields ih =>
      obtain ⟨key, v⟩ := field
      unfold Fields.value? at ih ⊢
      by_cases hkey : key = some slot.key
      · simp [valuesOf, hkey]
      · have hne : (some slot.key == key) = false := by simpa using Ne.symm hkey
        rw [List.lookup_cons, hne, ih]
        simp [valuesOf, hkey]
  rw [hhead, (Shape.presents_object_iff.mp h).2 slot hslot]
  cases content slot <;> rfl

theorem getElem?_of_mapM {α β : Type} {f : α → Option β} {as : List α} {bs : List β} {a : α}
    {i : Nat} (h : as.mapM f = some bs) (ha : as[i]? = some a) : bs[i]? = f a := by
  induction as generalizing bs i with
  | nil => simp at ha
  | cons first as ih =>
    rw [mapM_cons_some] at h
    obtain ⟨b, hb, h⟩ := Option.bind_eq_some_iff.mp h
    obtain ⟨rest, hrest, rfl⟩ := Option.map_eq_some_iff.mp h
    cases i with
    | zero =>
      obtain rfl := Option.some.inj ha
      exact hb.symm
    | succ i =>
      have hrest := ih hrest ha
      exact hrest

/-- A list of items for the first slots has something in these slots only. -/
theorem presents_written {f : Slot → Option Value} {written left : List Slot}
    (hslots : shape.slots = written ++ left) (hitems : written.mapM f = some items) :
    shape.Presents (.list items) fun slot => if slot ∈ written then f slot else none := by
  have hlength := length_of_mapM hitems
  refine Shape.presents_list_iff.mpr ⟨by simp [hslots, hlength], fun i slot hslot => ?_⟩
  rw [hslots] at hslot
  by_cases hi : i < written.length
  · rw [List.getElem?_append_left hi] at hslot
    rw [if_pos (List.mem_of_getElem? hslot), getElem?_of_mapM hitems hslot]
  · rw [List.getElem?_append_right (by omega)] at hslot
    have hdisjoint := List.disjoint_of_nodup_append (hslots ▸ shape.nodup_slots)
    rw [if_neg fun hwritten => hdisjoint hwritten (List.mem_of_getElem? hslot),
      List.getElem?_eq_none (by omega)]

/-- Where a list is written that was left out, a list of members follows. -/
theorem getLast?_eq_members {written left : List Slot} (hslots : shape.slots = written ++ left)
    (hslot : slot ∈ written) (hlast : written.getLast? ≠ some slot)
    (hdefault : slot.default? = some (.list [])) : written.getLast? = some .members := by
  have hkind : slot ∈ [Slot.types, .members, .interfaces] := by
    cases slot <;> simp [Slot.default?] at hdefault ⊢
  have htake : written = shape.slots.take written.length := by simp [hslots]
  have hle : written.length < 5 := by
    have hlength := congrArg List.length hslots
    cases shape <;> simp [Shape.slots] at hlength <;> omega
  have hall : ∀ k < 5, ∀ slot ∈ shape.slots.take k, (shape.slots.take k).getLast? ≠ some slot →
      slot ∈ [Slot.types, .members, .interfaces] →
      (shape.slots.take k).getLast? = some .members := by
    cases shape <;> decide
  rw [htake] at hslot hlast ⊢
  exact hall _ hle slot hslot hlast hkind

theorem keeps_permute (h : fields.Perm others) :
    Keeps shape (.object fields) (.object others) := by
  refine Keeps.of_slots Value.noConfusion Value.noConfusion fun content hcontent =>
    ⟨content, ?_, fun _ _ hparts => hparts⟩
  obtain ⟨hkeys, hvalues⟩ := Shape.presents_object_iff.mp hcontent
  refine Shape.presents_object_iff.mpr ⟨fun field hfield => hkeys field (h.mem_iff.mpr hfield),
    fun slot hslot => ?_⟩
  have hperm : (valuesOf slot.key others).Perm (valuesOf slot.key fields) :=
    (h.symm.filter _).map _
  rw [hvalues slot hslot] at hperm
  cases hslot : content slot with
  | none => simpa [hslot] using hperm
  | some v => simpa [hslot] using hperm

theorem keeps_insert {key : String} (h : key ∉ shape.keys) : Keeps shape
    (.object (before ++ after)) (.object (before ++ (some key, v) :: after)) := by
  refine Keeps.of_slots Value.noConfusion Value.noConfusion fun content hcontent =>
    ⟨content, ?_, fun _ _ hparts => hparts⟩
  obtain ⟨hkeys, hvalues⟩ := Shape.presents_object_iff.mp hcontent
  refine Shape.presents_object_iff.mpr ⟨?_, fun slot hslot => ?_⟩
  · rw [List.forall_mem_append] at hkeys
    rw [List.forall_mem_append, List.forall_mem_cons]
    exact ⟨hkeys.1, Option.some_ne_none key, hkeys.2⟩
  · have hne : some key ≠ some slot.key := fun heq =>
      h (List.mem_map.mpr ⟨slot, hslot, (Option.some.inj heq).symm⟩)
    rw [valuesOf_cons, if_neg hne, hvalues slot hslot]

theorem keeps_leaveOutNull : Keeps .type
    (.object (before ++ (some Slot.superclass.key, .null) :: after))
    (.object (before ++ after)) := by
  refine Keeps.of_slots Value.noConfusion Value.noConfusion fun content hcontent => ?_
  have hslot : Slot.superclass ∈ Shape.type.slots := by decide
  have hplace : Places .type .superclass fun v =>
      .object (before ++ (some Slot.superclass.key, v) :: after) := .field hslot
  have hnull := (hplace.governs hcontent).content_eq
  obtain ⟨hkeys, hvalues⟩ := Shape.presents_object_iff.mp hcontent
  refine ⟨Function.update content .superclass none, ?_,
    fun n parts hparts => readSlots_update hparts fun part hread => by rwa [hnull] at hread⟩
  refine presents_update hcontent hslot ?_ (fun key hkey => ?_) ?_
  · rw [List.forall_mem_append, List.forall_mem_cons] at hkeys
    exact List.forall_mem_append.mpr ⟨hkeys.1, hkeys.2.2⟩
  · rw [valuesOf_cons, if_neg fun heq => hkey (Option.some.inj heq).symm]
  · have hone := hvalues _ hslot
    rw [valuesOf_cons, if_pos rfl, hnull] at hone
    simp [valuesOf, List.append_eq_cons_iff] at hone ⊢
    tauto

theorem keeps_writeNull (h : ∀ field ∈ before ++ after, field.1 ≠ some Slot.superclass.key) :
    Keeps .type (.object (before ++ after))
      (.object (before ++ (some Slot.superclass.key, .null) :: after)) := by
  refine Keeps.of_slots Value.noConfusion Value.noConfusion fun content hcontent => ?_
  have hslot : Slot.superclass ∈ Shape.type.slots := by decide
  have hvalues : valuesOf Slot.superclass.key (before ++ after) = [] := by
    rw [valuesOf, List.map_eq_nil_iff, List.filter_eq_nil_iff]
    simpa using h
  obtain ⟨hkeys, hcontents⟩ := Shape.presents_object_iff.mp hcontent
  have hnone : content .superclass = none := by
    have hone := hcontents _ hslot
    rw [hvalues] at hone
    exact Option.toList_eq_nil_iff.mp hone.symm
  refine ⟨Function.update content .superclass (some .null), ?_,
    fun n parts hparts => readSlots_update hparts fun part hread => by rwa [hnone] at hread⟩
  refine presents_update hcontent hslot ?_ (fun key hkey => ?_) ?_
  · rw [List.forall_mem_append] at hkeys
    rw [List.forall_mem_append, List.forall_mem_cons]
    exact ⟨hkeys.1, Option.some_ne_none _, hkeys.2⟩
  · rw [valuesOf_cons, if_neg fun heq => hkey (Option.some.inj heq).symm]
  · obtain ⟨hbefore, hafter⟩ : valuesOf Slot.superclass.key before = [] ∧
        valuesOf Slot.superclass.key after = [] := by
      simpa [valuesOf] using hvalues
    rw [valuesOf_cons, if_pos rfl, hbefore, hafter]
    rfl

theorem keeps_asList {written left : List Slot} (hslots : shape.slots = written ++ left)
    (hlast : ∀ slot, written.getLast? = some slot → fields.value? slot ≠ none)
    (hleft : ∀ slot ∈ left, fields.value? slot = none ∨ fields.value? slot = slot.default?)
    (hitems : written.mapM (fun slot => (fields.value? slot).or slot.default?) = some items) :
    Keeps shape (.object fields) (.list items) := by
  refine Keeps.of_slots Value.noConfusion Value.noConfusion fun content hcontent =>
    ⟨_, presents_written hslots hitems, fun n parts hparts => ?_⟩
  refine readSlots_of_forall hparts fun slot hslot part hread => ?_
  rw [← value?_eq hcontent hslot] at hread
  split
  · rename_i hwritten
    cases hv : fields.value? slot with
    | some v => rwa [Option.some_or, ← hv]
    | none =>
      rw [hv] at hread
      rw [Option.none_or]
      cases hd : slot.default? with
      | none => exact hread
      | some d =>
        rcases read_default hd n with heq | ⟨-, rfl, rfl⟩
        · rw [heq, hread]
        · -- an empty list is written at the bottom, but the members after it are read as a list
          have hmembers := getLast?_eq_members hslots hwritten (fun h => hlast slot h hv) hd
          have hmem : Slot.members ∈ shape.slots :=
            hslots ▸ List.mem_append_left left (List.mem_of_getLast? hmembers)
          obtain ⟨ms, hms⟩ := Option.ne_none_iff_exists'.mp (hlast _ hmembers)
          have hnone : readSlots 0 content shape.slots = none :=
            mapM_eq_none_of_mem hmem (by
              rw [← value?_eq hcontent hmem, hms]
              cases ms <;> rfl)
          simp [hnone] at hparts
  · rename_i hwritten
    have hmem := List.mem_append.mp (hslots ▸ hslot)
    rcases hleft slot (hmem.resolve_left hwritten) with hv | hv
    · rwa [hv] at hread
    · cases hd : slot.default? with
      | none => rwa [hv, hd] at hread
      | some d =>
        rw [hv, hd] at hread
        rcases read_default hd n with heq | ⟨hnone, -, -⟩
        · rw [← heq, hread]
        · simp [hnone] at hread

theorem Respelling.keeps (h : Respelling shape v w) : Keeps shape v w := by
  cases h with
  | permute hperm => exact keeps_permute hperm
  | insert hkey hv => exact keeps_insert hkey
  | leaveOutNull => exact keeps_leaveOutNull
  | writeNull hnone => exact keeps_writeNull hnone
  | asList hslots hlast hleft hitems => exact keeps_asList hslots hlast hleft hitems

theorem valuesOf_ne_nil_iff {key : String} :
    valuesOf key fields ≠ [] ↔ ∃ field ∈ fields, field.1 = some key := by
  simp [valuesOf]

theorem Spoiling.refused (h : Spoiling shape v w) : Refused shape w := by
  cases h with
  | @repeatKey slot before after v hslot hrepeat =>
    refine Refused.of_slots Value.noConfusion fun content hcontent => absurd hrepeat ?_
    have hone := (Shape.presents_object_iff.mp hcontent).2 slot hslot
    rw [← valuesOf_ne_nil_iff, not_not]
    rw [valuesOf_cons, if_pos rfl] at hone
    cases hcontent : content slot <;>
      simp [hcontent, valuesOf, List.append_eq_cons_iff] at hone ⊢
    tauto
  | @drop slot fields hslot hdefault =>
    refine Refused.of_slots Value.noConfusion fun content hcontent => ⟨slot, hslot, fun n => ?_⟩
    have hone := (Shape.presents_object_iff.mp hcontent).2 slot hslot
    have hnil : valuesOf slot.key (fields.filter fun field => field.1 ≠ some slot.key) = [] := by
      simp [valuesOf]
    rw [hnil] at hone
    rw [Option.toList_eq_nil_iff.mp hone.symm, read_none hdefault]

theorem spellable_null : Value.null.Spellable :=
  Value.spellable_iff.mpr (List.forall_mem_singleton.mpr
    ⟨"null".toList, .bare (by simp [isBare]) rfl⟩)

theorem spellable_default {d : Value} (hd : slot.default? = some d) : d.Spellable := by
  have hlist : (Value.list []).Spellable :=
    Value.spellable_list_iff.mpr (List.forall_mem_nil _)
  cases slot <;> cases hd
  case superclass => exact spellable_null
  case modifiers =>
    exact Value.spellable_iff.mpr (List.forall_mem_singleton.mpr (spellable_text ""))
  all_goals exact hlist

theorem Respelling.spellable (h : Respelling shape v w) (hv : v.Spellable) : w.Spellable := by
  cases h with
  | permute hperm =>
    rw [Value.spellable_object_iff] at hv ⊢
    exact fun f hf => hv f (hperm.mem_iff.mpr hf)
  | @insert _ _ _ key v hkey hinserted =>
    rw [Value.spellable_object_iff, List.forall_mem_append] at hv
    rw [Value.spellable_object_iff, List.forall_mem_append, List.forall_mem_cons]
    exact ⟨hv.1, ⟨spellable_text key, hinserted⟩, hv.2⟩
  | leaveOutNull =>
    rw [Value.spellable_object_iff, List.forall_mem_append, List.forall_mem_cons] at hv
    rw [Value.spellable_object_iff, List.forall_mem_append]
    exact ⟨hv.1, hv.2.2⟩
  | writeNull =>
    rw [Value.spellable_object_iff, List.forall_mem_append] at hv
    rw [Value.spellable_object_iff, List.forall_mem_append, List.forall_mem_cons]
    exact ⟨hv.1, ⟨spellable_text _, spellable_null⟩, hv.2⟩
  | asList hslots hlast hleft hitems =>
    rw [Value.spellable_object_iff] at hv
    rw [Value.spellable_list_iff]
    intro item hitem
    obtain ⟨slot, hslot⟩ := exists_of_mem_mapM hitems item hitem
    rcases Option.or_eq_some_iff.mp hslot with hvalue | ⟨-, hd⟩
    · obtain ⟨before, after, rfl, -⟩ := List.lookup_eq_some_iff.mp hvalue
      exact (hv _ (List.mem_append_right before List.mem_cons_self)).2
    · exact spellable_default hd

abbrev Respelled (shape : Shape) : Value → Value → Prop :=
  Relation.ReflTransGen (Within Respelling shape)

theorem Respelled.spellable (h : Respelled shape v w) (hv : v.Spellable) : w.Spellable := by
  induction h with
  | refl => exact hv
  | tail _ hstep ih => exact hstep.spellable (fun _ _ _ h => h.spellable) ih

theorem Respelled.read_eq (h : Respelled shape v w) (hv : shape.read n v = some part) :
    shape.read n w = some part := by
  induction h with
  | refl => exact hv
  | tail _ hstep ih => exact (hstep.keeps fun _ _ _ h => h.keeps).read n part ih

theorem ofJson_of_spells {text : String} (hv : v.Spells text) : ofJson text =
    (ofNode jsonFormat jsonDepth v).elim
      (.error (.catalog "the text is not a catalog in JSON")) .ok := by
  rw [ofJson, Value.ofText?_eq_some_iff.mpr hv, Option.bind_some]
  cases ofNode jsonFormat jsonDepth v <;> rfl

theorem ofJson_eq_ok_iff {text : String} {c : Catalog} (hv : v.Spells text) :
    ofJson text = .ok c ↔ Shape.catalog.read jsonDepth v = some (.catalog c) := by
  rw [ofJson_of_spells hv, Shape.read]
  cases ofNode jsonFormat jsonDepth v <;> simp

theorem ofJson_eq_error {text : String} (hv : v.Spells text)
    (h : Shape.catalog.read jsonDepth v = none) :
    ∃ message, ofJson text = .error (.catalog message) := by
  rw [ofJson_of_spells hv, Option.map_eq_none_iff.mp h]
  exact ⟨_, rfl⟩

theorem exists_spells {text : String} {c : Catalog} (h : ofJson text = .ok c) :
    ∃ v : Value, v.Spells text := by
  cases hv : Value.ofText? text with
  | none => simp [ofJson, hv] at h
  | some v => exact ⟨v, Value.ofText?_eq_some_iff.mp hv⟩

/-- The spelling of a catalog does not matter: all texts of all respellings give the catalog, in
whatever way tokens are written and whatever white space stands between them. A respelling with a
record that is spoiled gives no catalog. -/
structure Respellable (c : Catalog) (v : Value) : Prop where
  spellable (w : Value) : Respelled .catalog v w → w.Spellable
  accepted (w : Value) : Respelled .catalog v w → ∀ text, w.Spells text → ofJson text = .ok c
  refused (w x : Value) : Respelled .catalog v w → Within Spoiling .catalog w x →
    ∀ text, x.Spells text → ∃ message, ofJson text = .error (.catalog message)

/-- Whatever text is read as a catalog, all its respellings are read as that catalog. -/
theorem ofJson_respellable {text : String} {c : Catalog} (h : ofJson text = .ok c) :
    (∃ v : Value, v.Spells text) ∧ ∀ v : Value, v.Spells text → Respellable c v := by
  refine ⟨exists_spells h, fun v hv => ?_⟩
  have hread := (ofJson_eq_ok_iff hv).mp h
  exact {
    spellable := fun w hw => hw.spellable ⟨text, hv⟩
    accepted := fun w hw text' htext' => (ofJson_eq_ok_iff htext').mpr (hw.read_eq hread)
    refused := fun w x _ hx text' htext' => ofJson_eq_error htext'
      ((hx.refused fun _ _ _ h => h.refused).read jsonDepth) }

def oneEnumFields : Fields :=
  [(some "qualified_name", .text (some "A")), (some "kind", .text (some "enum"))]

def oneEnumItems : List Value := [.text (some "A"), .text (some "enum")]

def oneEnumText : String :=
  r#"{"types": [{"qualified_name": "A", "kind": "enum"}]}"#

theorem respelled_oneEnum : Respelled .catalog
    (.object [(some "types", .list [.object oneEnumFields])])
    (.list [.list [.list oneEnumItems]]) := by
  have hinner : Respelling .type (.object oneEnumFields) (.list oneEnumItems) :=
    @Respelling.asList .type _ _ [.qualifiedName, .kind] [.superclass, .interfaces] rfl
      (by decide) (List.forall_mem_cons.mpr ⟨.inl rfl, List.forall_mem_singleton.mpr (.inl rfl)⟩)
      rfl
  have houter : Respelling .catalog (.object [(some "types", .list [.list oneEnumItems])])
      (.list [.list [.list oneEnumItems]]) :=
    @Respelling.asList .catalog _ _ [.types] [.members] rfl (by decide)
      (List.forall_mem_singleton.mpr (.inl rfl)) rfl
  have htypes : Slot.types ∈ Shape.catalog.slots := by decide
  exact .tail (.single (.inside (@Places.field _ _ [] [] htypes) (@Holds.types [] [])
    (.here hinner))) (.here houter)

/-- An object of an object is read as a list of a list is; an object without the name is not. -/
theorem oneEnum_respellable :
    ofJson oneEnumText = .ok ⟨[⟨"A", .enumType, none, []⟩], []⟩ ∧
      ofJson "[[[\"A\",\n\"\\u0065num\"]]]" = .ok ⟨[⟨"A", .enumType, none, []⟩], []⟩ ∧
      ∃ message, ofJson r#"{"types":[{"kind":"enum"}]}"# =
        .error (.catalog message) := by
  have hread : ofJson oneEnumText = .ok ⟨[⟨"A", .enumType, none, []⟩], []⟩ := by decide +kernel
  have hspells : Value.Spells (.object [(some "types", .list [.object oneEnumFields])])
      oneEnumText := Value.ofText?_eq_some_iff.mp rfl
  have hall := (ofJson_respellable hread).2 _ hspells
  refine ⟨hread, hall.accepted _ respelled_oneEnum _ (Value.ofText?_eq_some_iff.mp rfl),
    hall.refused _ _ .refl (.inside (@Places.field .catalog .types [] [] (by decide))
      (@Holds.types [] []) (.here (@Spoiling.drop .type .qualifiedName oneEnumFields (by decide)
        rfl))) _ (Value.ofText?_eq_some_iff.mp rfl)⟩

end DeclForest.Catalog
