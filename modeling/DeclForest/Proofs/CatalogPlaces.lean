import DeclForest.Proofs.CatalogSchema
import Mathlib.Logic.Function.Basic

/-!
Changes of one record of a catalog, wherever it stands. What a record is read as depends on what it
has in each slot only, and a change of an inner record changes one slot of the record around it. So
a change that keeps what a record is read as keeps it at any depth, and a record that is refused
makes all records around it refused.
-/

namespace DeclForest.Catalog

open Json

inductive Holds : Slot → Shape → (Value → Value) → Prop where
  | superclass : Holds .superclass .type id
  | declaringType : Holds .declaringType .type id
  | types {before after : List Value} : Holds .types .type fun v => .list (before ++ v :: after)
  | interfaces {before after : List Value} :
      Holds .interfaces .type fun v => .list (before ++ v :: after)
  | members {before after : List Value} :
      Holds .members .member fun v => .list (before ++ v :: after)

/-- Where a record has what stands in a slot: in a field, or at a place of its list. -/
inductive Places : Shape → Slot → (Value → Value) → Prop where
  | field {shape : Shape} {slot : Slot} {before after : Fields} : slot ∈ shape.slots →
      Places shape slot fun v => .object (before ++ (some slot.key, v) :: after)
  | item {shape : Shape} {slot : Slot} {before after : List Value} :
      shape.slots[before.length]? = some slot →
      Places shape slot fun v => .list (before ++ v :: after)

inductive Within (change : Shape → Value → Value → Prop) : Shape → Value → Value → Prop where
  | here {shape : Shape} {v w : Value} : change shape v w → Within change shape v w
  | inside {shape inner : Shape} {slot : Slot} {frame hole : Value → Value} {v w : Value} :
      Places shape slot frame → Holds slot inner hole → Within change inner v w →
      Within change shape (frame (hole v)) (frame (hole w))

variable {shape inner : Shape} {slot : Slot} {content content' : Slot → Option Value}
  {fields others before after : Fields} {v w : Value} {n : Nat} {part : Part}
  {hole frame : Value → Value}

theorem mapM_eq_none_of_mem {α β : Type} {f : α → Option β} {as : List α} {a : α} (ha : a ∈ as)
    (h : f a = none) : as.mapM f = none := by
  induction as with
  | nil => simp at ha
  | cons first as ih =>
    rw [mapM_cons_some]
    rcases List.mem_cons.mp ha with rfl | ha
    · rw [h, Option.bind_none]
    · rw [ih ha]
      cases f first <;> rfl

theorem mapM_of_imp {α β : Type} {f : α → Option β} {before after : List α} {a a' : α}
    {bs : List β} (ha : ∀ b, f a = some b → f a' = some b)
    (h : (before ++ a :: after).mapM f = some bs) : (before ++ a' :: after).mapM f = some bs := by
  cases hb : f a with
  | none =>
    rw [mapM_eq_none_of_mem (List.mem_append_right before List.mem_cons_self) hb] at h
    simp at h
  | some b =>
    rw [← h, List.mapM_append, List.mapM_append, mapM_cons_some, mapM_cons_some, hb, ha b hb]

theorem readSlots_of_forall {slots : List Slot} {parts : List Part}
    (h : readSlots n content slots = some parts)
    (hread : ∀ slot ∈ slots, ∀ part, slot.read n (content slot) = some part →
      slot.read n (content' slot) = some part) : readSlots n content' slots = some parts := by
  induction slots generalizing parts with
  | nil => exact h
  | cons slot slots ih =>
    obtain ⟨hslot, hslots⟩ := List.forall_mem_cons.mp hread
    rw [readSlots, mapM_cons_some] at h ⊢
    obtain ⟨part, hpart, h⟩ := Option.bind_eq_some_iff.mp h
    obtain ⟨rest, hrest, rfl⟩ := Option.map_eq_some_iff.mp h
    have hafter : slots.mapM (fun slot => slot.read n (content' slot)) = some rest :=
      ih hrest hslots
    rw [hslot part hpart, Option.bind_some, hafter, Option.map_some]

/-- Whatever the one value is read as, the other is read as too. -/
structure Keeps (shape : Shape) (v w : Value) : Prop where
  ne_null : v ≠ .null
  ne_null' : w ≠ .null
  read : ∀ n part, shape.read n v = some part → shape.read n w = some part

structure Refused (shape : Shape) (v : Value) : Prop where
  ne_null : v ≠ .null
  read : ∀ n, shape.read n v = none

theorem Keeps.typeOf_eq {t : ExternalType} (h : Keeps .type v w)
    (ht : typeOf jsonFormat n v = some t) : typeOf jsonFormat n w = some t := by
  have hread := h.read n (.type t) (by rw [Shape.read, ht, Option.map_some])
  obtain ⟨t', ht', heq⟩ := Option.map_eq_some_iff.mp hread
  rw [ht', Part.type.inj heq]

theorem Keeps.memberOf_eq {m : ExternalMember} (h : Keeps .member v w)
    (hm : memberOf jsonFormat n v = some m) : memberOf jsonFormat n w = some m := by
  have hread := h.read n (.member m) (by rw [Shape.read, hm, Option.map_some])
  obtain ⟨m', hm', heq⟩ := Option.map_eq_some_iff.mp hread
  rw [hm', Part.member.inj heq]

theorem optional_of_ne_null (h : v ≠ .null) : jsonFormat.optional v = some (some v) := by
  cases v <;> first | rfl | exact absurd rfl h

theorem read_superclass (h : v ≠ .null) (n : Nat) : Slot.superclass.read n (some v) =
    (typeOf jsonFormat n v).map fun t => .superclass (some t) := by
  rw [Slot.read, orElse, optional_of_ne_null h, Option.bind_some]
  cases ht : typeOf jsonFormat n v <;> simp [ht]

theorem items_list {α : Type} (read : Nat → Value → Option α) (n : Nat) (items : List Value) :
    Catalog.items jsonFormat read n (.list items) =
      if n = 0 then none else items.mapM (read (n - 1)) := by
  cases n <;> rfl

/-- A slot is read as before if it holds a record that is. -/
theorem Holds.read_of_keeps (hhole : Holds slot inner hole) (h : Keeps inner v w)
    (hread : slot.read n (some (hole v)) = some part) :
    slot.read n (some (hole w)) = some part := by
  have hlist {α : Type} {read : Nat → Value → Option α} {wrap : List α → Part}
      {before after : List Value} (hv : ∀ n a, read n v = some a → read n w = some a)
      (hread : (Catalog.items jsonFormat read n (.list (before ++ v :: after))).map wrap =
        some part) :
      (Catalog.items jsonFormat read n (.list (before ++ w :: after))).map wrap = some part := by
    rw [items_list] at hread ⊢
    split at hread
    · simp at hread
    · rename_i hn
      obtain ⟨parts, hparts, rfl⟩ := Option.map_eq_some_iff.mp hread
      rw [if_neg hn, mapM_of_imp (hv (n - 1)) hparts, Option.map_some]
  cases hhole with
  | superclass =>
    rw [id, read_superclass h.ne_null] at hread
    obtain ⟨t, ht, rfl⟩ := Option.map_eq_some_iff.mp hread
    rw [id, read_superclass h.ne_null', h.typeOf_eq ht, Option.map_some]
  | declaringType =>
    obtain ⟨t, ht, rfl⟩ := Option.map_eq_some_iff.mp hread
    rw [id, Slot.read, Option.bind_some, h.typeOf_eq ht, Option.map_some]
  | types => exact hlist (fun _ _ => h.typeOf_eq) hread
  | interfaces => exact hlist (fun _ _ => h.typeOf_eq) hread
  | members => exact hlist (fun _ _ => h.memberOf_eq) hread

/-- A slot is refused if it holds a record that is. -/
theorem Holds.read_of_refused (hhole : Holds slot inner hole) (h : Refused inner w) (n : Nat) :
    slot.read n (some (hole w)) = none := by
  have hlist {α : Type} {read : Nat → Value → Option α} {wrap : List α → Part}
      {before after : List Value} (hw : ∀ n, read n w = none) :
      (Catalog.items jsonFormat read n (.list (before ++ w :: after))).map wrap = none := by
    rw [items_list, mapM_eq_none_of_mem (List.mem_append_right before List.mem_cons_self)
      (hw (n - 1)), ite_self, Option.map_none]
  have htype (h : Refused .type w) (n : Nat) : typeOf jsonFormat n w = none :=
    Option.map_eq_none_iff.mp (h.read n)
  have hmember (h : Refused .member w) (n : Nat) : memberOf jsonFormat n w = none :=
    Option.map_eq_none_iff.mp (h.read n)
  cases hhole with
  | superclass => rw [id, read_superclass h.ne_null, htype h, Option.map_none]
  | declaringType => rw [id, Slot.read, Option.bind_some, htype h, Option.map_none]
  | types => exact hlist (htype h)
  | interfaces => exact hlist (htype h)
  | members => exact hlist (hmember h)

theorem valuesOf_cons (key : String) (k : Option String) (v : Value) :
    valuesOf key (before ++ (k, v) :: after) =
      if k = some key then valuesOf key before ++ v :: valuesOf key after
      else valuesOf key (before ++ after) := by
  by_cases h : k = some key <;> simp [valuesOf, h]

/-- An object with other values for one key has something else in one slot. -/
theorem presents_update {o : Option Value} (h : shape.Presents (.object fields) content)
    (hslot : slot ∈ shape.slots) (hkeys : ∀ field ∈ others, field.1 ≠ none)
    (hsame : ∀ key, key ≠ slot.key → valuesOf key others = valuesOf key fields)
    (hone : valuesOf slot.key others = o.toList) :
    shape.Presents (.object others) (Function.update content slot o) := by
  refine Shape.presents_object_iff.mpr ⟨hkeys, fun other hother => ?_⟩
  by_cases heq : other = slot
  · subst heq
    rw [Function.update_self, hone]
  · rw [Function.update_of_ne heq, hsame other.key fun hkey =>
      heq (Shape.eq_of_key_eq hother hslot hkey)]
    exact (Shape.presents_object_iff.mp h).2 other hother

structure Places.Governs (shape : Shape) (slot : Slot) (frame : Value → Value)
    (content : Slot → Option Value) (v : Value) : Prop where
  mem : slot ∈ shape.slots
  content_eq : content slot = some v
  presents (w : Value) : shape.Presents (frame w) (Function.update content slot (some w))

theorem Places.ne_null (h : Places shape slot frame) (v : Value) : frame v ≠ .null := by
  cases h <;> exact Value.noConfusion

theorem Places.governs (hplace : Places shape slot frame) (h : shape.Presents (frame v) content) :
    Governs shape slot frame content v := by
  cases hplace with
  | @field before after hslot =>
    obtain ⟨hkeys, hvalues⟩ := Shape.presents_object_iff.mp h
    have hone := hvalues slot hslot
    rw [valuesOf_cons, if_pos rfl] at hone
    obtain ⟨hbefore, hv, hafter⟩ : valuesOf slot.key before = [] ∧ content slot = some v ∧
        valuesOf slot.key after = [] := by
      cases hcontent : content slot <;> simp [hcontent, List.append_eq_cons_iff] at hone ⊢
      tauto
    refine ⟨hslot, hv, fun w => presents_update h hslot ?_ (fun key hkey => ?_) ?_⟩
    · rw [List.forall_mem_append, List.forall_mem_cons] at hkeys ⊢
      exact ⟨hkeys.1, Option.some_ne_none slot.key, hkeys.2.2⟩
    · have hne : some slot.key ≠ some key := fun heq => hkey (Option.some.inj heq).symm
      rw [valuesOf_cons, valuesOf_cons, if_neg hne, if_neg hne]
    · rw [valuesOf_cons, if_pos rfl, hbefore, hafter]
      rfl
  | @item before after hslot =>
    obtain ⟨hlength, hitems⟩ := Shape.presents_list_iff.mp h
    refine ⟨List.mem_of_getElem? hslot, ?_, fun w => Shape.presents_list_iff.mpr ⟨?_, ?_⟩⟩
    · rw [hitems before.length slot hslot]
      simp
    · simpa using hlength
    · intro i other hother
      by_cases heq : other = slot
      · subst heq
        have hi : i = before.length := (List.getElem?_inj
          (List.getElem?_eq_some_iff.mp hother).1 shape.nodup_slots).mp (hother.trans hslot.symm)
        rw [Function.update_self, hi]
        simp
      · have hi : before.length ≠ i := by
          rintro rfl
          exact heq (Option.some.inj (hother.symm.trans hslot))
        have hset : before ++ w :: after = (before ++ v :: after).set before.length w := by simp
        rw [Function.update_of_ne heq, hset, List.getElem?_set_ne hi, hitems i other hother]

/-- What is read stays if one slot changes to what is read as before. -/
theorem readSlots_update {o : Option Value} {slots : List Slot} {parts : List Part}
    (h : readSlots n content slots = some parts)
    (hread : ∀ part, slot.read n (content slot) = some part → slot.read n o = some part) :
    readSlots n (Function.update content slot o) slots = some parts := by
  refine readSlots_of_forall h fun other _ part hpart => ?_
  by_cases heq : other = slot
  · subst heq
    rw [Function.update_self, hread part hpart]
  · rwa [Function.update_of_ne heq]

/-- A record is read as before if what each of its slots is read as stays. -/
theorem Keeps.of_slots (hv : v ≠ .null) (hw : w ≠ .null)
    (h : ∀ content, shape.Presents v content → ∃ content', shape.Presents w content' ∧
      ∀ n parts, readSlots n content shape.slots = some parts →
        readSlots n content' shape.slots = some parts) : Keeps shape v w := by
  refine ⟨hv, hw, fun n part hread => ?_⟩
  cases n with
  | zero => simp [read_zero] at hread
  | succ n =>
    obtain ⟨content, hcontent, hparts⟩ := Shape.read_eq_some_iff.mp hread
    obtain ⟨parts, hparts, hbuild⟩ := Option.bind_eq_some_iff.mp hparts
    obtain ⟨content', hcontent', hkeep⟩ := h content hcontent
    rw [hcontent'.read_eq, hkeep n parts hparts, Option.bind_some, hbuild]

theorem Keeps.inside (hplace : Places shape slot frame) (hhole : Holds slot inner hole)
    (h : Keeps inner v w) : Keeps shape (frame (hole v)) (frame (hole w)) := by
  refine Keeps.of_slots (hplace.ne_null _) (hplace.ne_null _) fun content hcontent => ?_
  have hgoverns := hplace.governs hcontent
  refine ⟨_, hgoverns.presents (hole w), fun n parts hparts => ?_⟩
  refine readSlots_update hparts fun part hread => ?_
  rw [hgoverns.content_eq] at hread
  exact hhole.read_of_keeps h hread

/-- A value is refused if some slot is, whatever it has in its slots. -/
theorem Refused.of_slots (hw : w ≠ .null) (h : ∀ content, shape.Presents w content →
    ∃ slot ∈ shape.slots, ∀ n, slot.read n (content slot) = none) : Refused shape w := by
  refine ⟨hw, fun n => ?_⟩
  cases n with
  | zero => exact read_zero shape w
  | succ n =>
    rw [Option.eq_none_iff_forall_ne_some]
    intro part hread
    obtain ⟨content, hcontent, hparts⟩ := Shape.read_eq_some_iff.mp hread
    obtain ⟨slot, hslot, hnone⟩ := h content hcontent
    have hslots : readSlots n content shape.slots = none :=
      mapM_eq_none_of_mem hslot (hnone n)
    simp [hslots] at hparts

theorem Refused.inside (hplace : Places shape slot frame) (hhole : Holds slot inner hole)
    (h : Refused inner w) : Refused shape (frame (hole w)) := by
  refine Refused.of_slots (hplace.ne_null _) fun content hcontent => ?_
  have hgoverns := hplace.governs hcontent
  refine ⟨slot, hgoverns.mem, fun n => ?_⟩
  rw [hgoverns.content_eq, hhole.read_of_refused h n]

theorem Holds.spellable (hhole : Holds slot inner hole) (h : (hole v).Spellable)
    (hvw : v.Spellable → w.Spellable) : (hole w).Spellable := by
  have hlist {before after : List Value} (h : (Value.list (before ++ v :: after)).Spellable) :
      (Value.list (before ++ w :: after)).Spellable := by
    rw [Value.spellable_list_iff, List.forall_mem_append, List.forall_mem_cons] at h ⊢
    exact ⟨h.1, hvw h.2.1, h.2.2⟩
  cases hhole with
  | superclass => exact hvw h
  | declaringType => exact hvw h
  | types => exact hlist h
  | interfaces => exact hlist h
  | members => exact hlist h

theorem Places.spellable (hplace : Places shape slot frame) (h : (frame v).Spellable)
    (hvw : v.Spellable → w.Spellable) : (frame w).Spellable := by
  cases hplace with
  | field =>
    rw [Value.spellable_object_iff, List.forall_mem_append, List.forall_mem_cons] at h ⊢
    exact ⟨h.1, ⟨h.2.1.1, hvw h.2.1.2⟩, h.2.2⟩
  | item =>
    rw [Value.spellable_list_iff, List.forall_mem_append, List.forall_mem_cons] at h ⊢
    exact ⟨h.1, hvw h.2.1, h.2.2⟩

theorem Within.keeps {change : Shape → Value → Value → Prop} (h : Within change shape v w)
    (hchange : ∀ shape v w, change shape v w → Keeps shape v w) : Keeps shape v w := by
  induction h with
  | here h => exact hchange _ _ _ h
  | inside hplace hhole _ ih => exact ih.inside hplace hhole

theorem Within.refused {change : Shape → Value → Value → Prop} (h : Within change shape v w)
    (hchange : ∀ shape v w, change shape v w → Refused shape w) : Refused shape w := by
  induction h with
  | here h => exact hchange _ _ _ h
  | inside hplace hhole _ ih => exact ih.inside hplace hhole

theorem Within.spellable {change : Shape → Value → Value → Prop} (h : Within change shape v w)
    (hchange : ∀ shape v w, change shape v w → v.Spellable → w.Spellable) :
    v.Spellable → w.Spellable := by
  induction h with
  | here h => exact hchange _ _ _ h
  | inside hplace hhole _ ih =>
    exact fun hv => hplace.spellable hv fun hv => hhole.spellable hv ih

end DeclForest.Catalog
