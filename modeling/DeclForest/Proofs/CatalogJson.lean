import DeclForest.Proofs.CatalogFormat

/-!
Catalogs written as JSON and read again. What is written is read back as it was, but only down to
the depth that the reader allows, which the writer does not look at; what the reader itself made is
never deeper than that.
-/

namespace DeclForest

namespace Json.Value

theorem mapM_named? (fields : List (String × Outline)) :
    (fieldValues fields).mapM named? = some (fields.map fun f => (f.1, valueOf f.2)) := by
  induction fields with
  | nil => rfl
  | cons f fields ih =>
    obtain ⟨key, value⟩ := f
    rw [fieldValues, List.mapM_cons, ih]
    rfl

theorem record?_valueOf (keys : List String) (fields : List (String × Outline)) :
    record? keys (valueOf (.record fields)) =
      keys.mapM (only? (fields.map fun f => (f.1, valueOf f.2))) := by
  rw [valueOf, record?, mapM_named?, Option.bind_some]

/-- Where no key is repeated, the only field with a key is the first one. -/
theorem only?_map (key : String) {fields : List (String × Outline)}
    (h : (fields.map Prod.fst).Nodup) :
    only? (fields.map fun f => (f.1, valueOf f.2)) key =
      some ((fields.lookup key).map valueOf) := by
  have hfilter : (fields.map fun f => (f.1, valueOf f.2)).filter (fun f => f.1 == key) =
      ((fields.lookup key).map fun value => (key, valueOf value)).toList := by
    induction fields with
    | nil => rfl
    | cons f fields ih =>
      obtain ⟨other, value⟩ := f
      obtain ⟨hother, hfields⟩ := List.nodup_cons.mp h
      by_cases hkey : other = key
      · subst hkey
        have hrest : (fields.map fun f => (f.1, valueOf f.2)).filter (fun f => f.1 == other) =
            [] := by
          refine List.filter_eq_nil_iff.mpr fun f hf heq => hother ?_
          obtain ⟨g, hg, rfl⟩ := List.mem_map.mp hf
          exact List.mem_map.mpr ⟨g, hg, eq_of_beq heq⟩
        simp [hrest]
      · have hne : (key == other) = false := beq_false_of_ne (Ne.symm hkey)
        simpa [List.lookup_cons, hkey, hne] using ih hfields
  rw [only?, hfilter]
  cases fields.lookup key <;> rfl

end Json.Value

namespace Catalog

open Json

/-- The values of an outline present it. -/
theorem presents_valueOf : Presents jsonFormat valueOf where
  refuse_bind _ := rfl
  record_zero _ _ := rfl
  record_succ n keys fields hfields := by
    have hrecord : jsonFormat.record (n + 1) keys (valueOf (.record fields)) =
        (valueOf (.record fields)).record? keys := rfl
    have honly : Value.only? (fields.map fun f => (f.1, valueOf f.2)) =
        fun key => pure ((fields.lookup key).map valueOf) :=
      funext fun key => Value.only?_map key hfields
    rw [hrecord, Value.record?_valueOf, honly, List.mapM_pure]
  list_zero items := by rw [valueOf]; rfl
  list_succ n items := by rw [valueOf, itemValues_eq_map]; rfl
  text _ := by rw [valueOf]; rfl
  word _ _ := by rw [valueOf]; rfl
  optional _ := by rw [valueOf]; rfl

theorem exists_of_mem_mapM {α β : Type} {read : α → Option β} {as : List α} {bs : List β}
    (h : as.mapM read = some bs) : ∀ b ∈ bs, ∃ a, read a = some b := by
  induction as generalizing bs with
  | nil =>
    obtain rfl := Option.some.inj h
    simp
  | cons a as ih =>
    rw [List.mapM_cons] at h
    obtain ⟨b, hb, h⟩ := Option.bind_eq_some_iff.mp h
    obtain ⟨rest, hrest, h⟩ := Option.bind_eq_some_iff.mp h
    obtain rfl := Option.some.inj h
    exact List.forall_mem_cons.mpr ⟨⟨a, hb⟩, ih hrest⟩

/-- What a type that is read records was read before it. -/
theorem recorded_of_typeWith {n : Nat} {superclassOf interfaceOf : Value → Option ExternalType}
    {v : Value} {t : ExternalType} (h : typeWith jsonFormat n superclassOf interfaceOf v = some t) :
    (∀ s, t.superclass = some s → ∃ w, superclassOf w = some s) ∧
      ∀ face ∈ t.interfaces, ∃ w, interfaceOf w = some face := by
  obtain ⟨fields, -, h⟩ := Option.bind_eq_some_iff.mp h
  split at h
  · obtain ⟨name, -, h⟩ := Option.bind_eq_some_iff.mp h
    obtain ⟨kind, -, h⟩ := Option.bind_eq_some_iff.mp h
    obtain ⟨superclass, -, h⟩ := Option.bind_eq_some_iff.mp h
    obtain ⟨superclass', hsuper, h⟩ := Option.bind_eq_some_iff.mp h
    obtain ⟨faces, -, h⟩ := Option.bind_eq_some_iff.mp h
    obtain ⟨faces', hfaces, h⟩ := Option.bind_eq_some_iff.mp h
    obtain rfl := Option.some.inj h
    refine ⟨?_, exists_of_mem_mapM hfaces⟩
    rintro s rfl
    cases superclass with
    | none => simp at hsuper
    | some w => exact ⟨w, by simpa using hsuper⟩
  · exact absurd h (by simp [jsonFormat])

/-- What is read is never deeper than the reader may go. -/
theorem depth_le_of_typeOf {n : Nat} {v : Value} {t : ExternalType}
    (h : typeOf jsonFormat n v = some t) : t.depth ≤ n := by
  induction n using Nat.strong_induction_on generalizing v t with
  | _ n ih =>
    cases n with
    | zero => exact absurd h (by simp [typeOf, jsonFormat])
    | succ n =>
      rw [typeOf_succ] at h
      obtain ⟨hsuper, hfaces⟩ := recorded_of_typeWith h
      rcases t with ⟨name, kind, superclass, faces⟩
      have hs : superclassDepth superclass ≤ n := by
        cases superclass with
        | none => exact Nat.zero_le n
        | some s =>
          obtain ⟨w, hw⟩ := hsuper s rfl
          exact ih n (by omega) hw
      have hf : interfacesDepth faces ≤ n := by
        cases n with
        | zero =>
          -- at the lowest level no interface can be read at all
          cases faces with
          | nil => exact Nat.le_refl 0
          | cons face faces =>
            obtain ⟨w, hw⟩ := hfaces face List.mem_cons_self
            exact absurd hw (by simp [typeOf, jsonFormat])
        | succ n =>
          refine interfacesDepth_le_iff.mpr fun face hface => ?_
          obtain ⟨w, hw⟩ := hfaces face hface
          exact ih n (by omega) hw
      rw [ExternalType.depth]
      omega

theorem depth_le_of_memberOf {n : Nat} {v : Value} {m : ExternalMember}
    (h : memberOf jsonFormat n v = some m) : m.depth ≤ n := by
  cases n with
  | zero => exact absurd h (by simp [memberOf, jsonFormat])
  | succ n =>
    obtain ⟨fields, -, h⟩ := Option.bind_eq_some_iff.mp h
    split at h
    · obtain ⟨declaring, hdeclaring, h⟩ := Option.bind_eq_some_iff.mp h
      obtain ⟨name, -, h⟩ := Option.bind_eq_some_iff.mp h
      obtain ⟨kind, -, h⟩ := Option.bind_eq_some_iff.mp h
      obtain ⟨modifiers, -, h⟩ := Option.bind_eq_some_iff.mp h
      obtain rfl := Option.some.inj h
      have hdepth := depth_le_of_typeOf hdeclaring
      show 1 + declaring.depth ≤ n + 1
      omega
    · exact absurd h (by simp [jsonFormat])

theorem exists_of_mem_items {α : Type} {read : Nat → Value → Option α} {n : Nat} {v : Option Value}
    {as : List α} (h : orElse [] (items jsonFormat read n) v = some as) :
    ∀ a ∈ as, ∃ w, read (n - 1) w = some a := by
  cases v with
  | none =>
    obtain rfl := Option.some.inj h
    simp
  | some v =>
    obtain ⟨values, -, h⟩ := Option.bind_eq_some_iff.mp h
    exact exists_of_mem_mapM h

theorem depth_le_of_ofNode {n : Nat} {v : Value} {c : Catalog}
    (h : ofNode jsonFormat (n + 2) v = some c) : c.depth ≤ n + 2 := by
  obtain ⟨fields, -, h⟩ := Option.bind_eq_some_iff.mp h
  split at h
  · obtain ⟨types, htypes, h⟩ := Option.bind_eq_some_iff.mp h
    obtain ⟨members, hmembers, h⟩ := Option.bind_eq_some_iff.mp h
    obtain rfl := Option.some.inj h
    refine depth_le_iff.mpr ⟨fun t ht => ?_, fun m hm => ?_⟩
    · obtain ⟨w, hw⟩ := exists_of_mem_items htypes t ht
      exact depth_le_of_typeOf hw
    · obtain ⟨w, hw⟩ := exists_of_mem_items hmembers m hm
      exact depth_le_of_memberOf hw
  · exact absurd h (by simp [jsonFormat])

theorem ofJson_toJson (c : Catalog) : ofJson c.toJson =
    if c.depth ≤ jsonDepth then .ok c
    else .error (.catalog "the text is not a catalog in JSON") := by
  rw [ofJson, toJson, ofText?_write, Option.bind_some, presents_valueOf.ofNode_fields]
  by_cases h : c.depth ≤ jsonDepth
  · rw [if_pos h, if_pos h]
    rfl
  · rw [if_neg h, if_neg h]
    rfl

theorem depth_le_of_ofJson {text : String} {c : Catalog} (h : ofJson text = .ok c) :
    c.depth ≤ jsonDepth := by
  unfold ofJson at h
  split at h
  · rename_i c' hread
    obtain rfl := Except.ok.inj h
    obtain ⟨v, -, hv⟩ := Option.bind_eq_some_iff.mp hread
    exact depth_le_of_ofNode (n := 125) hv
  · simp at h

structure JsonKept (c : Catalog) : Prop where
  nested : ∃ tokens, tokens? c.toJson.toList = some tokens ∧ nesting 0 tokens = c.depth
  kept : c.depth ≤ jsonDepth → ofJson c.toJson = .ok c
  refused : jsonDepth < c.depth → ∃ message, ofJson c.toJson = .error (.catalog message)

/-- JSON loses nothing of a catalog, and a catalog that was read is always written and read back. -/
theorem toJson_keeps_all : (∀ c : Catalog, c.JsonKept) ∧
    ∀ text c, ofJson text = .ok c → ofJson c.toJson = .ok c := by
  refine ⟨fun c => ⟨c.nesting_toJson, fun h => ?_, fun h => ?_⟩, fun text c h => ?_⟩
  · rw [ofJson_toJson, if_pos h]
  · exact ⟨_, by rw [ofJson_toJson, if_neg (by omega)]⟩
  · rw [ofJson_toJson, if_pos (depth_le_of_ofJson h)]

def tower : Nat → ExternalType
  | 0 => ⟨"A", .classType, none, []⟩
  | n + 1 => ⟨"A", .classType, some (tower n), []⟩

theorem depth_tower (n : Nat) : (tower n).depth = n + 1 := by
  induction n with
  | zero => rfl
  | succ n ih =>
    rw [tower, ExternalType.depth, superclassDepth, interfacesDepth, ih]
    omega

def unusualText : String :=
  r#"{"members": [], "types": [{"kind": "enum", "qualified_name": "\u0041"}]}"#

/-- The last depth that is read, the first that is not, and a catalog from a text that is not the
one written for it. -/
theorem tower_keeps_all :
    ofJson (Catalog.toJson ⟨[tower 124], []⟩) = .ok ⟨[tower 124], []⟩ ∧
      (∃ message, ofJson (Catalog.toJson ⟨[tower 125], []⟩) = .error (.catalog message)) ∧
      ofJson unusualText = .ok ⟨[⟨"A", .enumType, none, []⟩], []⟩ ∧
      ofJson (Catalog.toJson ⟨[⟨"A", .enumType, none, []⟩], []⟩) =
        .ok ⟨[⟨"A", .enumType, none, []⟩], []⟩ := by
  have hdepth : ∀ n, Catalog.depth ⟨[tower n], []⟩ = n + 3 := by
    intro n
    have ht := depth_tower n
    simp only [Catalog.depth, List.map_cons, List.map_nil, List.append_nil, List.foldr_cons,
      List.foldr_nil, ht]
    omega
  have hread : ofJson unusualText = .ok ⟨[⟨"A", .enumType, none, []⟩], []⟩ := by decide +kernel
  obtain ⟨hkept, hagain⟩ := toJson_keeps_all
  exact ⟨(hkept _).kept (by rw [hdepth]; decide), (hkept _).refused (by rw [hdepth]; decide),
    hread, hagain unusualText _ hread⟩

end Catalog

end DeclForest
