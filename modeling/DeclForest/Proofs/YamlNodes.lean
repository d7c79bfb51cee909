import DeclForest.Proofs.YamlOutlines
import DeclForest.Catalog.Yaml

/-!
The document that a written outline is read as. The nodes are read with fewer steps than the tokens
allow; and since there are neither anchors nor aliases, numbering the anchors changes nothing.
-/

namespace DeclForest.Yaml

mutual

def nodeOf {α : Type} : Outline → Node α
  | .text s => .scalar none none (Style.of s.toList = .plain) s
  | .list items => .sequence none none (itemNodes items)
  | .record fields => .mapping none none (fieldNodes fields)

def itemNodes {α : Type} : List Outline → List (Node α)
  | [] => []
  | item :: items => nodeOf item :: itemNodes items

def fieldNodes {α : Type} : List (String × Outline) → List (Node α × Node α)
  | [] => []
  | (key, value) :: fields => (.scalar none none true key, nodeOf value) :: fieldNodes fields

end

namespace Node

variable {handles : Handles} {n : Nat} {rest : List Token} {place : Place}

theorem read_scalar (isPlain : Bool) (text : String) :
    read handles (n + 1) place (.scalar isPlain text :: rest) =
      some (.scalar none none isPlain text, rest) := by
  rw [read]
  · rfl
  · simp

theorem read_blockMapping {ts : List Token} {pairs : List (Node String × Node String)}
    (hplace : place.block = true) (h : readPairs handles n ts = some (pairs, rest)) :
    read handles (n + 1) place (.blockMapping :: ts) = some (.mapping none none pairs, rest) := by
  obtain ⟨_, indentless⟩ := place
  obtain rfl := hplace
  simp [read, Properties.read, h]

theorem read_entry {ts : List Token} {items : List (Node String)}
    (h : readEntries handles n true (.entry :: ts) = some (items, rest)) :
    read handles (n + 1) .inMapping (.entry :: ts) = some (.sequence none none items, rest) := by
  simp [read, Properties.read, Place.inMapping, h]

theorem read_emptyList :
    read handles (n + 2) place (.openSequence :: .closeSequence :: rest) =
      some (.sequence none none [], rest) := by
  simp [read, Properties.read, readFlowItems]

/-- A pair, where the value does not look like one that was left out. -/
theorem readPairs_key {key : String} {ts after : List Token} {value : Node String}
    {pairs : List (Node String × Node String)}
    (hts : startsWith [.key, .value, .blockEnd] ts = false)
    (hvalue : read handles n .inMapping ts = some (value, rest))
    (hpairs : readPairs handles (n + 2) rest = some (pairs, after)) :
    readPairs handles (n + 3) (.key :: .scalar true key :: .value :: ts) =
      some ((.scalar none none true key, value) :: pairs, after) := by
  have hkey : readUnless handles (n + 2) [.key, .value, .blockEnd] .inMapping
      (.scalar true key :: .value :: ts) = some (.scalar none none true key, .value :: ts) := by
    simp [readUnless, startsWith, read_scalar]
  have hread : readValue handles (n + 2) [.key, .value, .blockEnd] .inMapping (.value :: ts) =
      some (value, rest) := by
    simp [readValue, readUnless, hts, hvalue]
  simp [readPairs, hkey, hread, hpairs]

/-- An entry that is a record, in a list that is not indented. -/
theorem readEntries_record {ts after : List Token} {item : Node String} {items : List (Node String)}
    (hitem : read handles n .entry (.blockMapping :: ts) = some (item, rest))
    (hitems : readEntries handles (n + 1) true rest = some (items, after)) :
    readEntries handles (n + 2) true (.entry :: .blockMapping :: ts) =
      some (item :: items, after) := by
  simp [readEntries, readUnless, startsWith, hitem, hitems]

theorem startsWith_tokensOf (value : Outline) (rest : List Token) :
    startsWith [.key, .value, .blockEnd] (tokensOf value ++ rest) = false := by
  rcases value with content | (_ | ⟨item, items⟩) | fields <;>
    simp [tokensOf, itemTokens, startsWith]

theorem head?_fieldTokens (fields : List (String × Outline)) (rest : List Token) :
    (fieldTokens fields ++ .blockEnd :: rest).head? ≠ some .entry := by
  rcases fields with _ | ⟨field, fields⟩ <;> simp [fieldTokens]

mutual

/-- A value is read to its node, with four steps for each token left. No entry may follow: behind a
list that is not indented, it would be one more of its items. -/
theorem read_value {n : Nat} {rest : List Token} : (value : Outline) → IsBlock value →
    rest.head? ≠ some .entry → 4 * (tokensOf value ++ rest).length + 2 ≤ n →
    read handles n .inMapping (tokensOf value ++ rest) = some (nodeOf value, rest)
  | .text content, _, _, hn => by
    obtain ⟨n, rfl⟩ := Nat.exists_eq_add_of_le' (Nat.le_of_add_left_le hn)
    rw [tokensOf, nodeOf]
    exact read_scalar _ _
  | .list [], _, _, hn => by
    obtain ⟨n, rfl⟩ := Nat.exists_eq_add_of_le' (Nat.le_of_add_left_le hn)
    rw [tokensOf, nodeOf, itemNodes]
    exact read_emptyList
  | .list (item :: items), hvalue, hrest, hn => by
    obtain ⟨n, rfl⟩ := Nat.exists_eq_add_of_le' (Nat.le_of_add_left_le hn)
    simp only [tokensOf, nodeOf] at hn ⊢
    exact read_entry (readEntries_items (item :: items) hvalue hrest (by omega))
  | .record fields, hvalue, _, hn => by
    obtain ⟨n, rfl⟩ := Nat.exists_eq_add_of_le' (Nat.le_of_add_left_le hn)
    simp only [tokensOf, nodeOf, List.append_assoc, List.cons_append, List.nil_append,
      List.length_cons] at hn ⊢
    exact read_blockMapping rfl (readPairs_fields fields hvalue.2 (by omega))

theorem readEntries_items {n : Nat} {rest : List Token} : (items : List Outline) → AreItems items →
    rest.head? ≠ some .entry → 4 * (itemTokens items ++ rest).length + 1 ≤ n →
    readEntries handles n true (itemTokens items ++ rest) = some (itemNodes items, rest)
  | [], _, hrest, hn => by
    obtain ⟨n, rfl⟩ := Nat.exists_eq_add_of_le' (Nat.le_of_add_left_le hn)
    rw [itemTokens, itemNodes, List.nil_append, readEntries]
    rintro ts rfl
    exact hrest rfl
  | .record fields :: items, hitems, hrest, hn => by
    simp only [itemTokens, itemNodes, tokensOf, nodeOf, List.append_assoc, List.cons_append,
      List.nil_append, List.length_cons, List.length_append] at hn ⊢
    obtain ⟨n, rfl⟩ := Nat.exists_eq_add_of_le' (show 3 ≤ n by omega)
    refine readEntries_record (read_blockMapping rfl
      (readPairs_fields fields hitems.2.1.2 ?_)) (readEntries_items items hitems.2.2 hrest ?_)
    · simp
      omega
    · simp
      omega

theorem readPairs_fields {n : Nat} {rest : List Token} : (fields : List (String × Outline)) →
    AreFields fields → 4 * (fieldTokens fields ++ .blockEnd :: rest).length + 1 ≤ n →
    readPairs handles n (fieldTokens fields ++ .blockEnd :: rest) = some (fieldNodes fields, rest)
  | [], _, hn => by
    obtain ⟨n, rfl⟩ := Nat.exists_eq_add_of_le' (Nat.le_of_add_left_le hn)
    rfl
  | (key, value) :: fields, hfields, hn => by
    simp only [fieldTokens, fieldNodes, List.append_assoc, List.cons_append, List.length_cons,
      List.length_append] at hn ⊢
    obtain ⟨n, rfl⟩ := Nat.exists_eq_add_of_le' (show 3 ≤ n by omega)
    refine readPairs_key (startsWith_tokensOf value _) (read_value value hfields.2.1
      (head?_fieldTokens fields rest) ?_) (readPairs_fields fields hfields.2.2 ?_)
    · simp
      omega
    · simp
      omega

end

theorem ofTokens?_tokensOf {fields : List (String × Outline)} (h : AreFields fields) :
    ofTokens? (tokensOf (.record fields)) = some (some (nodeOf (.record fields))) := by
  have hshape : tokensOf (.record fields) =
      .blockMapping :: (fieldTokens fields ++ [.blockEnd]) := by
    rw [tokensOf]
    rfl
  have hread : read [] (steps (.blockMapping :: (fieldTokens fields ++ [.blockEnd]))) .entry
      (.blockMapping :: (fieldTokens fields ++ [.blockEnd])) =
        some (.mapping none none (fieldNodes fields), []) :=
    read_blockMapping rfl (readPairs_fields fields h (by simp; omega))
  rw [hshape, ofTokens?]
  simp [Token.isDirective, Token.handles?, hread, nodeOf]

mutual

/-- There are no anchors to number. -/
theorem number_nodeOf (names : Names) : (value : Outline) →
    number names (nodeOf value) = some (nodeOf value, names)
  | .text content => by
    rw [nodeOf, nodeOf]
    rfl
  | .list items => by
    simp [nodeOf, number, defineAnchor, numberItems_itemNodes names items]
  | .record fields => by
    simp [nodeOf, number, defineAnchor, numberPairs_fieldNodes names fields]

theorem numberItems_itemNodes (names : Names) : (items : List Outline) →
    numberItems names (itemNodes items) = some (itemNodes items, names)
  | [] => rfl
  | item :: items => by
    simp [itemNodes, numberItems, number_nodeOf names item, numberItems_itemNodes names items]

theorem numberPairs_fieldNodes (names : Names) : (fields : List (String × Outline)) →
    numberPairs names (fieldNodes fields) = some (fieldNodes fields, names)
  | [] => rfl
  | (key, value) :: fields => by
    simp [fieldNodes, numberPairs, number, defineAnchor, number_nodeOf names value,
      numberPairs_fieldNodes names fields]

end

end Node

/-- The document of an outline. -/
theorem Document.ofText?_write {fields : List (String × Outline)} (hne : fields ≠ [])
    (h : AreFields fields) : Document.ofText? (String.ofList (write fields)) =
      some (.ofNode (nodeOf (.record fields))) := by
  rw [Document.ofText?, String.toList_ofList, Yaml.ofText?_write hne h]
  simp [Node.ofTokens?_tokensOf h, Node.number_nodeOf]

end DeclForest.Yaml
