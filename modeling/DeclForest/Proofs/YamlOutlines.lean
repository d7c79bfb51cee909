import DeclForest.Proofs.YamlScan

/-!
The tokens of a written outline. Within a record, a value stands behind its key or on the lines
below it, and each piece of text is read to just the tokens that the piece has in the outline.
-/

namespace DeclForest.Yaml

variable {text rest : List Char} {x : Char}

mutual

def tokensOf : Outline → List Token
  | .text s => [.scalar (Style.of s.toList = .plain) s]
  | .list [] => [.openSequence, .closeSequence]
  | .list items => itemTokens items
  | .record fields => .blockMapping :: fieldTokens fields ++ [.blockEnd]

def itemTokens : List Outline → List Token
  | [] => []
  | item :: items => .entry :: tokensOf item ++ itemTokens items

def fieldTokens : List (String × Outline) → List Token
  | [] => []
  | (key, value) :: fields =>
    .key :: .scalar true key :: .value :: tokensOf value ++ fieldTokens fields

end

mutual

/-- An outline of printable texts, where every item of a list is a record and no record is empty. -/
def IsBlock : Outline → Prop
  | .text s => ∀ c ∈ s.toList, isAscii c = true
  | .list items => AreItems items
  | .record fields => fields ≠ [] ∧ AreFields fields

def AreItems : List Outline → Prop
  | [] => True
  | item :: items => (∃ fields, item = .record fields) ∧ IsBlock item ∧ AreItems items

def AreFields : List (String × Outline) → Prop
  | [] => True
  | (key, value) :: fields => IsKey key.toList ∧ IsBlock value ∧ AreFields fields

end

theorem indentOf_spaces (hx : x ≠ ' ') (n : Nat) : indentOf (spaces n ++ x :: rest) = n := by
  rw [indentOf, takeWhile_spaces (by simp) n (by simpa using hx), spaces, List.length_replicate]

theorem unindented_spaces (hx : x ≠ ' ') (n : Nat) :
    unindented (spaces n ++ x :: rest) = x :: rest := by
  have h := spaces_append_unindented (spaces n ++ x :: rest)
  rw [indentOf_spaces hx] at h
  exact List.append_cancel_left h

theorem ne_space_of_start (hx : x = '-' ∨ isKeyChar x = true) : x ≠ ' ' := by
  rcases hx with rfl | hx
  · decide
  · exact ne_of_isKeyChar hx rfl

theorem isLine_spaces (hx : x = '-' ∨ isKeyChar x = true) (n : Nat) :
    IsLine (spaces n ++ x :: rest) := by
  have hspace := ne_space_of_start hx
  refine ⟨fun y hy => ?_, fun h => ?_⟩
  · rw [unindented_spaces hspace] at hy
    exact Option.some.inj hy ▸ hx
  · rw [unindented_spaces hspace] at h
    exact absurd h (List.cons_ne_nil x rest)

structure Follows (column : Nat) (text : List Char) : Prop where
  line : IsLine text
  indent_le : indentOf text ≤ column

theorem follows_spaces {m n : Nat} (hx : x = '-' ∨ isKeyChar x = true) (h : m ≤ n) :
    Follows n (spaces m ++ x :: rest) := by
  refine ⟨isLine_spaces hx m, ?_⟩
  rwa [indentOf_spaces (ne_space_of_start hx)]

theorem follows_nil (n : Nat) : Follows n [] :=
  ⟨⟨fun x hx => by simp [unindented] at hx, fun _ => rfl⟩, Nat.zero_le n⟩

theorem Follows.mono {m n : Nat} (h : Follows m text) (hle : m ≤ n) : Follows n text :=
  ⟨h.line, Nat.le_trans h.indent_le hle⟩

section Written

variable (column : Nat) {field : String × Outline} {fields : List (String × Outline)}

theorem writeFields_start (h : AreFields (field :: fields)) (text : List Char) :
    ∃ x more, isKeyChar x = true ∧
      writeField column field ++ (writeFields column fields ++ text) = x :: more := by
  obtain ⟨key, value⟩ := field
  obtain ⟨x, more, hx⟩ := List.exists_cons_of_ne_nil h.1.ne_nil
  have hchar := h.1.chars x (by rw [hx]; exact List.mem_cons_self)
  rw [writeField, hx]
  exact ⟨x, _, hchar, rfl⟩

theorem indentOf_fields (h : AreFields (field :: fields)) (text : List Char) :
    indentOf (writeFields column (field :: fields) ++ text) = column := by
  obtain ⟨x, more, hx, hstart⟩ := writeFields_start column h text
  rw [writeFields, List.append_assoc, List.append_assoc, hstart,
    indentOf_spaces (ne_of_isKeyChar hx rfl)]

theorem unindented_fields (h : AreFields (field :: fields)) (text : List Char) :
    unindented (writeFields column (field :: fields) ++ text) =
      writeField column field ++ (writeFields column fields ++ text) := by
  obtain ⟨x, more, hx, hstart⟩ := writeFields_start column h text
  rw [writeFields, List.append_assoc, List.append_assoc, hstart,
    unindented_spaces (ne_of_isKeyChar hx rfl)]

variable {column}

theorem follows_fields (h : AreFields fields) (htext : Follows column text) :
    Follows column (writeFields column fields ++ text) := by
  cases fields with
  | nil => exact htext
  | cons field fields =>
    obtain ⟨x, more, hx, hstart⟩ := writeFields_start column h text
    rw [writeFields, List.append_assoc, List.append_assoc, hstart]
    exact follows_spaces (.inr hx) (Nat.le_refl column)

theorem follows_items (items : List Outline) (htext : Follows column text) :
    Follows column (writeItems column items ++ text) := by
  cases items with
  | nil => exact htext
  | cons item items =>
    rw [writeItems, List.append_assoc, List.append_assoc]
    exact follows_spaces (.inl rfl) (Nat.le_refl column)

theorem gapAt_writeValue (column : Nat) (value : Outline) (text : List Char) :
    gapAt (writeValue column value ++ text) = true := by
  rcases value with content | (_ | ⟨item, items⟩) | (_ | ⟨field, fields⟩) <;> rfl

end Written

theorem StartsPlain.append {more : List Char} (h : StartsPlain x more) (rest : List Char) :
    StartsPlain x (more ++ rest) := by
  cases more with
  | nil => exact ⟨h.indicator, h.gap, fun hx => absurd (h.spaced hx) (by decide)⟩
  | cons y more => exact ⟨h.indicator, h.gap, h.spaced⟩

namespace Scan

variable {s t u : Scan} {tokens : List Token} {indents outer : List Nat} {column c : Nat}
  {allowed : Bool}

/-- From one scan on, everything is read up to the end of a line. -/
def Reads (s : Scan) (tokens : List Token) (indents : List Nat) (text : List Char) : Prop :=
  ∃ t, LeadsTo s t ∧ Between t tokens indents text

theorem Reads.of_leadsTo (h : LeadsTo s t) (ht : Reads t tokens indents text) :
    Reads s tokens indents text := by
  obtain ⟨u, hu, hbetween⟩ := ht
  exact ⟨u, h.trans hu, hbetween⟩

theorem Between.reads (h : Between s tokens indents text) : Reads s tokens indents text :=
  ⟨s, .refl s, h⟩

/-- At the end of a line. -/
theorem At.between (h : At s tokens indents column ('\n' :: text) false) :
    Between s tokens indents text :=
  ⟨h.candidate_eq, h.outer_eq, .inl ⟨h.keyAllowed_eq, h.rest_eq⟩, [], h.indents_eq,
    h.tokens_eq.symm, List.forall_mem_nil _⟩

/-- The innermost block ends with the line before one that is indented less. -/
theorem Between.close (h : Between s tokens (c :: indents) text) (hc : indentOf text < c) :
    Between s (.blockEnd :: tokens) indents text := by
  obtain ⟨hcandidate, houter, hplace, inner, hinner, htokens, hdeep⟩ := h
  refine ⟨hcandidate, houter, hplace, inner ++ [c], by simp [hinner], ?_, ?_⟩
  · have hend : inner.map (fun _ => Token.blockEnd) ++ [.blockEnd] =
        .blockEnd :: inner.map fun _ => Token.blockEnd := by
      rw [List.map_const']
      exact List.replicate_succ'.symm
    rw [htokens, List.map_append, List.map_singleton, hend]
    rfl
  · simpa [or_imp, forall_and] using ⟨hdeep, hc⟩

theorem token_quoted {more : List Char} (hcolumn : 0 < s.cursor.column)
    (hrest : s.cursor.rest = '\'' :: more) : s.token = s.nodeToken (quoted '\'') := by
  simp [token, hrest, Cursor.atMarker, Nat.pos_iff_ne_zero.mp hcolumn]

theorem token_openBracket {more : List Char} (hcolumn : 0 < s.cursor.column)
    (hrest : s.cursor.rest = '[' :: more) : s.token = s.openBracket .openSequence := by
  simp [token, hrest, Cursor.atMarker, Nat.pos_iff_ne_zero.mp hcolumn]

theorem token_closeBracket {more : List Char} (hcolumn : 0 < s.cursor.column)
    (hrest : s.cursor.rest = ']' :: more) : s.token = s.closeBracket .closeSequence := by
  simp [token, hrest, Cursor.atMarker, Nat.pos_iff_ne_zero.mp hcolumn]

/-- A plain scalar that ends its line. -/
theorem At.reads_plain {content : List Char}
    (h : At s tokens (c :: outer) column (content ++ '\n' :: text) false)
    (hs : Settles t s) (hcontent : IsPlain content) (hcolumn : c < column)
    (htext : Follows c text) :
    Reads t (.scalar true (String.ofList content) :: tokens) (c :: outer) text := by
  obtain ⟨x, more, hx, hstart⟩ := hcontent.start
  have hfirst : s.cursor.rest = x :: (more ++ '\n' :: text) := by rw [h.rest_eq, hx]; rfl
  have hplace : 0 < s.cursor.column := by rw [h.column_eq]; omega
  have hend : (s.cursor.skip content.length).rest = '\n' :: text := by simp [h.rest_eq]
  have hscalar : Plain.read s.inFlow s.floor s.cursor =
      some ⟨content, (s.cursor.skip content.length).toLine, true⟩ := by
    have hfloor : s.floor = c + 1 := by simp [floor, h.indents_eq]
    rw [h.inFlow, hfloor, Plain.read_words hcontent.words htext.line h.rest_eq
      (Nat.lt_succ_of_le htext.indent_le) (by rw [h.column_eq]; omega)]
  have htoken := (token_plain hfirst h.outer_eq (.inl hplace) (hstart.append _)).trans
    (plain_eq (saveCandidate_of_not h.keyAllowed_eq) hscalar)
  refine ⟨_, hs.leadsTo htoken ?_, h.candidate_eq, h.outer_eq,
    .inr ⟨rfl, Cursor.toLine_rest hend, Cursor.toLine_column hend⟩, [], h.indents_eq, ?_,
    List.forall_mem_nil _⟩
  · have hlength := congrArg List.length (spaces_append_unindented text)
    rw [List.length_append] at hlength
    rw [Cursor.toLine_rest hend, hfirst]
    simp
    omega
  · rw [← h.tokens_eq]
    rfl

/-- A quoted scalar that ends its line. -/
theorem At.reads_quoted {content : List Char}
    (h : At s tokens indents column
      ('\'' :: (Quoted.doubled content ++ '\'' :: '\n' :: text)) false)
    (hs : Settles t s) (hascii : ∀ x ∈ content, isAscii x = true) (hcolumn : 0 < column) :
    Reads t (.scalar false (String.ofList content) :: tokens) indents text := by
  have htoken := token_quoted (by rwa [h.column_eq]) h.rest_eq
  have hread := Quoted.read_doubled hascii h.rest_eq
  simp only [nodeToken, saveCandidate_of_not h.keyAllowed_eq, Option.bind_eq_bind,
    Option.bind_some, Scan.quoted, hread, Option.map_some] at htoken
  have hend : (s.cursor.skip ((Quoted.doubled content).length + 2)).rest = '\n' :: text := by
    simp [h.rest_eq]
  refine ⟨_, hs.leadsTo htoken ?_, h.candidate_eq, h.outer_eq, .inl ⟨rfl, hend⟩, [], h.indents_eq,
    ?_, List.forall_mem_nil _⟩
  · rw [hend, h.rest_eq]
    simp
    omega
  · rw [← h.tokens_eq]
    rfl

/-- A text behind a key. -/
theorem At.reads_text {content : String}
    (h : At s tokens (c :: outer) column (' ' :: scalarLine (c + 2) content.toList ++ text) false)
    (hascii : ∀ x ∈ content.toList, isAscii x = true) (hcolumn : c < column)
    (htext : Follows c text) :
    Reads s (.scalar (Style.of content.toList = .plain) content :: tokens) (c :: outer) text := by
  rw [scalarLine_eq hascii] at h
  by_cases hplain : Style.of content.toList = .plain
  · have hcontent := Style.isPlain_of hascii hplain
    obtain ⟨x, more, hx, hstart⟩ := hcontent.start
    have hstarts : Starts x := by
      refine ⟨hascii x (by simp [hx]), ?_, ?_⟩
      · rintro rfl
        exact absurd hstart.gap (by decide)
      · rintro rfl
        exact hstart.indicator (by decide)
    have hshape : ' ' :: (content.toList ++ ['\n']) ++ text =
        spaces 1 ++ x :: (more ++ '\n' :: text) := by
      simp [hx, spaces]
    rw [if_pos hplain, hshape] at h
    obtain ⟨u, hu, hat⟩ := h.settle hstarts (by simp; omega)
    rw [← List.cons_append, ← hx] at hat
    simpa [hplain] using hat.reads_plain hu hcontent (by omega) htext
  · have hshape : ' ' :: ('\'' :: Quoted.doubled content.toList ++ ['\''] ++ ['\n']) ++ text =
        spaces 1 ++ '\'' :: (Quoted.doubled content.toList ++ '\'' :: '\n' :: text) := by
      simp [spaces]
    rw [if_neg hplain, hshape] at h
    obtain ⟨u, hu, hat⟩ := h.settle ⟨rfl, by decide, by decide⟩ (by simp; omega)
    simpa [hplain] using hat.reads_quoted hu hascii (by omega)

/-- Inside of brackets no block is closed. -/
theorem settles_inFlow (hrest : s.cursor.rest = x :: rest) (hx : Starts x)
    (hcandidate : s.candidate = none) (houter : s.outer = [none]) : Settles s s := by
  have hgap : gapFrom s.inFlow (s.cursor.rest.length + 1) s.cursor s.keyAllowed =
      (s.cursor, s.keyAllowed) :=
    gapFrom_blanks (m := 0) hrest fun y hy => Option.some.inj hy ▸ hx
  have hdrop : s.dropStale = some s := by
    obtain ⟨cursor, _, _, candidate, outer, _⟩ := s
    obtain rfl : candidate = none := hcandidate
    obtain rfl : outer = [none] := houter
    rfl
  refine ⟨?_, Nat.le_refl _⟩
  rw [settle, toNext, hgap, hdrop, Option.map_some, unroll, inFlow, houter]
  rfl

def behindBracket (s : Scan) : Scan :=
  { (s.push .openSequence).skip 1 with candidate := none, outer := [none], keyAllowed := true }

/-- An empty list behind a key. -/
theorem At.reads_emptyList (h : At s tokens indents column (" []\n".toList ++ text) false)
    (hindents : ∀ d, indents.head? = some d → d ≤ column) :
    Reads s (.closeSequence :: .openSequence :: tokens) indents text := by
  have hspaced : At s tokens indents column (spaces 1 ++ '[' :: ']' :: '\n' :: text) false := h
  obtain ⟨u, hu, hat⟩ := hspaced.settle ⟨rfl, by decide, by decide⟩ fun d hd =>
    Nat.le_succ_of_le (hindents d hd)
  have hinside : u.behindBracket.cursor.rest = ']' :: '\n' :: text := by
    simp [behindBracket, skip, push, hat.rest_eq]
  have hopen : u.token = some u.behindBracket := by
    rw [token_openBracket (by rw [hat.column_eq]; omega) hat.rest_eq, openBracket,
      saveCandidate_of_not hat.keyAllowed_eq]
    simp [behindBracket, hat.candidate_eq, hat.outer_eq]
  have hclose : u.behindBracket.token = some { (u.behindBracket.push .closeSequence).skip 1 with
      candidate := none, outer := [], keyAllowed := false } := by
    rw [token_closeBracket (by simp [behindBracket, skip]) hinside]
    rfl
  refine ⟨_, (hu.leadsTo hopen ?_).trans ((settles_inFlow hinside ⟨rfl, by decide, by decide⟩ rfl
    rfl).leadsTo hclose ?_), rfl, rfl, .inl ⟨rfl, ?_⟩, [], hat.indents_eq, ?_,
    List.forall_mem_nil _⟩
  · rw [hinside, hat.rest_eq]
    simp
  · simp [skip, push, hinside]
  · simp [skip, push, hinside]
  · rw [← hat.tokens_eq]
    rfl

/-- The mark of an entry. A list that is not indented under its key opens no block. -/
theorem Between.entry (h : Between s tokens (c :: outer) (spaces c ++ '-' :: ' ' :: x :: rest))
    (hx : Starts x) : ∃ t u, LeadsTo s t ∧ Settles t u ∧
      At u (.entry :: tokens) (c :: outer) (c + 2) (x :: rest) true := by
  obtain ⟨u, hu, hat⟩ := h.settle (isLine_spaces (.inl rfl) c) (by simp [indentOf_spaces])
  rw [indentOf_spaces (by decide), unindented_spaces (by decide)] at hat
  have htoken := token_eq hat.rest_eq hat.outer_eq (.inr (.inr rfl)) (by decide)
  have hfloor : c < u.floor := by simp [floor, hat.indents_eq]
  rw [if_pos ⟨rfl, rfl⟩, mark, hat.inFlow, hat.keyAllowed_eq, hat.column_eq,
    roll_of_lt_floor hfloor] at htoken
  simp only [dropCandidate, hat.candidate_eq, giveUp, Option.bind_eq_bind, Option.bind_some,
    Option.pure_def, Bool.not_true, Bool.and_false, Bool.false_eq_true, if_false] at htoken
  have hmarked : At { (u.push .entry).skip 1 with candidate := none, keyAllowed := true }
      (.entry :: tokens) (c :: outer) (c + 1) (spaces 1 ++ x :: rest) true :=
    ⟨congrArg _ hat.tokens_eq, hat.indents_eq, congrArg (· + 1) hat.column_eq,
      congrArg (List.drop 1) hat.rest_eq, rfl, hat.outer_eq, rfl⟩
  obtain ⟨v, hv, hentry⟩ := hmarked.settle hx (by simp; omega)
  refine ⟨_, v, hu.leadsTo htoken ?_, hv, hentry⟩
  simp [push, skip, hat.rest_eq]

theorem Reads.bind {after : List Char} {tokens' : List Token} {indents' : List Nat}
    (h : Reads s tokens indents text)
    (h' : ∀ t, Between t tokens indents text → Reads t tokens' indents' after) :
    Reads s tokens' indents' after := by
  obtain ⟨t, ht, hbetween⟩ := h
  exact (h' t hbetween).of_leadsTo ht

mutual

/-- A value behind its key is read up to the end of its lines. -/
theorem reads_value {s : Scan} {tokens : List Token} {outer : List Nat} {c column : Nat}
    {text : List Char} : (value : Outline) → IsBlock value →
      At s tokens (c :: outer) column (writeValue c value ++ text) false → c < column →
      Follows c text → Reads s ((tokensOf value).reverse ++ tokens) (c :: outer) text
  | .text content, hvalue, h, hcolumn, htext => by
    rw [writeValue] at h
    rw [tokensOf]
    exact h.reads_text hvalue hcolumn htext
  | .list [], _, h, hcolumn, _ => by
    rw [writeValue] at h
    rw [tokensOf]
    exact h.reads_emptyList (by simp; omega)
  | .list (item :: items), hvalue, h, _, htext => by
    rw [writeValue, List.cons_append] at h
    · rw [tokensOf]
      · exact reads_items (item :: items) hvalue h.between htext
      · exact List.cons_ne_nil item items
    · exact List.cons_ne_nil item items
  | .record (field :: fields), hvalue, h, _, htext => by
    rw [writeValue, List.cons_append] at h
    · have hinner := htext.mono (Nat.le_add_right c 2)
      have hindent := indentOf_fields (c + 2) hvalue.2 text
      obtain ⟨u, hu, hat⟩ := h.between.settle (follows_fields hvalue.2 hinner).line
        (by simp [hindent])
      rw [hindent] at hat
      have hread := reads_record (field :: fields) hvalue.1 hvalue.2 hu hat (by simp) hinner
      have hle := htext.indent_le
      simpa [tokensOf] using hread.bind fun t ht => (ht.close (by omega)).reads
    · exact List.cons_ne_nil field fields

theorem reads_items {s : Scan} {tokens : List Token} {outer : List Nat} {c : Nat}
    {text : List Char} : (items : List Outline) → AreItems items →
      Between s tokens (c :: outer) (writeItems c items ++ text) → Follows c text →
      Reads s ((itemTokens items).reverse ++ tokens) (c :: outer) text
  | [], _, h, _ => h.reads
  | .record (field :: fields) :: items, hitems, h, htext => by
    obtain ⟨-, hitem, hitems⟩ := hitems
    have hfollows := follows_items items htext
    have hle := hfollows.indent_le
    obtain ⟨x, more, hx, hstart⟩ := writeFields_start (c + 2) hitem.2
      (writeItems c items ++ text)
    have hshape : writeItems c (.record (field :: fields) :: items) ++ text =
        spaces c ++ '-' :: ' ' :: x :: more := by
      rw [← hstart, writeItems, writeItem]
      simp
    rw [hshape] at h
    obtain ⟨t, u, ht, hu, hat⟩ := h.entry (starts_of_isKeyChar hx)
    rw [← hstart, ← unindented_fields (c + 2) hitem.2] at hat
    have hread := reads_record (field :: fields) hitem.1 hitem.2 hu hat (by simp)
      (hfollows.mono (Nat.le_add_right c 2))
    -- the mapping of the item ends where the text goes back to the column of the list
    refine .of_leadsTo ht (hread.bind fun v hv => ?_)
    simpa [itemTokens, tokensOf] using reads_items items hitems (hv.close (by omega)) htext

/-- The fields of a record up to the end of their lines, where the first one opens a mapping. -/
theorem reads_record {s u : Scan} {tokens : List Token} {indents : List Nat} {c : Nat}
    {text : List Char} : (fields : List (String × Outline)) → fields ≠ [] → AreFields fields →
      Settles s u → At u tokens indents c (unindented (writeFields c fields ++ text)) true →
      (∀ d, indents.head? = some d → d < c) → Follows c text →
      Reads s ((fieldTokens fields).reverse ++ .blockMapping :: tokens) (c :: indents) text
  | field :: fields, _, hfields, hs, h, hindents, htext => by
    rw [unindented_fields c hfields] at h
    have hfield : AreFields [field] := ⟨hfields.1, hfields.2.1, trivial⟩
    have hread := reads_field field hfield hs h (.first hindents) (follows_fields hfields.2.2 htext)
    refine hread.bind fun t ht => ?_
    simpa [fieldTokens] using reads_fields fields hfields.2.2 ht htext

theorem reads_fields {s : Scan} {tokens : List Token} {outer : List Nat} {c : Nat}
    {text : List Char} : (fields : List (String × Outline)) → AreFields fields →
      Between s tokens (c :: outer) (writeFields c fields ++ text) → Follows c text →
      Reads s ((fieldTokens fields).reverse ++ tokens) (c :: outer) text
  | [], _, h, _ => h.reads
  | field :: fields, hfields, h, htext => by
    have hindent := indentOf_fields c hfields text
    obtain ⟨u, hu, hat⟩ := h.settle (follows_fields hfields htext).line (by simp [hindent])
    rw [hindent, unindented_fields c hfields] at hat
    have hfield : AreFields [field] := ⟨hfields.1, hfields.2.1, trivial⟩
    have hread := reads_field field hfield hu hat .further (follows_fields hfields.2.2 htext)
    refine hread.bind fun t ht => ?_
    simpa [fieldTokens] using reads_fields fields hfields.2.2 ht htext

theorem reads_field {s u : Scan} {tokens opened : List Token} {indents outer : List Nat} {c : Nat}
    {text : List Char} : (field : String × Outline) → AreFields [field] → Settles s u →
      At u tokens indents c (writeField c field ++ text) true →
      Opens c tokens indents opened (c :: outer) → Follows c text →
      Reads s ((fieldTokens [field]).reverse ++ opened) (c :: outer) text
  | (key, value), hfield, hs, h, hopens, htext => by
    rw [writeField, List.append_assoc, List.cons_append] at h
    obtain ⟨t, ht, hat⟩ := h.key hs hfield.1 (gapAt_writeValue c value text) hopens
    have hread := reads_value value hfield.2.1 hat (by omega) htext
    simpa [fieldTokens] using hread.of_leadsTo ht

end

/-- At the end of the text the outermost block is closed. -/
theorem Between.run_eq {m : Nat} (h : Between s tokens [0] []) (hm : m ≠ 0) :
    run m s = some (.blockEnd :: tokens) := by
  obtain ⟨m, rfl⟩ := Nat.exists_eq_add_one_of_ne_zero hm
  obtain ⟨u, hu, hat⟩ := h.settle (follows_nil 0).line (by simp)
  have hclosed : u.unroll 0 = { u with tokens := .blockEnd :: u.tokens, indents := [] } :=
    unroll_eq hat.outer_eq hat.indents_eq (List.forall_mem_singleton.mpr (Nat.le_refl 0))
      fun _ hd => absurd hd (by simp)
  have hend : u.cursor.rest = [] := hat.rest_eq
  rw [run_succ, hu.eq, Option.bind_some, if_pos hend, finish, hclosed, dropCandidate,
    hat.candidate_eq, hat.tokens_eq]
  rfl

theorem run_write {fields : List (String × Outline)} (hne : fields ≠ []) (h : AreFields fields) :
    (start (write fields)).run ((write fields).length + 1) =
      some (tokensOf (.record fields)).reverse := by
  have hwrite : write fields = writeFields 0 fields ++ [] := (List.append_nil _).symm
  have hindent : indentOf (write fields) = 0 := by
    obtain ⟨field, rest, rfl⟩ := List.exists_cons_of_ne_nil hne
    rw [hwrite, indentOf_fields 0 h]
  have hunindented : write fields = unindented (write fields) := by
    have htext := spaces_append_unindented (write fields)
    rw [hindent] at htext
    exact htext.symm
  have hstart : Between (start (write fields)) [] [] (write fields) :=
    ⟨rfl, rfl, .inr ⟨rfl, hunindented, hindent.symm⟩, [], rfl, rfl, List.forall_mem_nil _⟩
  have hline : IsLine (write fields) := by
    rw [hwrite]
    exact (follows_fields h (follows_nil 0)).line
  obtain ⟨u, hu, hat⟩ := hstart.settle hline (by simp)
  rw [hindent, hwrite] at hat
  obtain ⟨t, ht, hbetween⟩ := reads_record fields hne h hu hat (by simp) (follows_nil 0)
  obtain ⟨m, hm, hrun⟩ := ht ((write fields).length + 1) (Nat.lt_succ_self _)
  rw [hrun, hbetween.run_eq (Nat.ne_zero_of_lt hm)]
  simp [tokensOf]

end Scan

section Allowed

variable {s : List Char}

theorem all_of_isAscii (h : ∀ c ∈ s, isAscii c = true) : s.all isAllowed = true :=
  List.all_eq_true.mpr fun c hc => isAllowed_of_isAscii (h c hc)

theorem all_doubled (h : ∀ c ∈ s, isAscii c = true) : (Quoted.doubled s).all isAllowed = true := by
  refine all_of_isAscii fun c hc => ?_
  obtain ⟨d, hd, hc⟩ := List.mem_flatMap.mp hc
  have hcd : c = d := by
    by_cases hquote : d = '\'' <;> simpa [hquote] using hc
  exact hcd ▸ h d hd

theorem all_scalarLine (h : ∀ c ∈ s, isAscii c = true) (indent : Nat) :
    (scalarLine indent s).all isAllowed = true := by
  rw [scalarLine_eq h]
  split <;> simp [all_of_isAscii h, all_doubled h] <;> decide

theorem all_spaces (n : Nat) : (spaces n).all isAllowed = true :=
  all_of_isAscii fun c hc => by rw [List.eq_of_mem_replicate hc]; rfl

theorem all_key {key : List Char} (h : IsKey key) : key.all isAllowed = true :=
  all_of_isAscii fun c hc => isAscii_of_isKeyChar (h.chars c hc)

mutual

theorem all_writeValue (column : Nat) : (value : Outline) → IsBlock value →
    (writeValue column value).all isAllowed = true
  | .text content, h => by
    rw [writeValue, List.all_cons, all_scalarLine h]
    rfl
  | .list [], _ => rfl
  | .list (item :: items), h => all_writeItems column (item :: items) h
  | .record (field :: fields), h => all_writeFields (column + 2) (field :: fields) h.2

theorem all_writeItems (column : Nat) : (items : List Outline) → AreItems items →
    (writeItems column items).all isAllowed = true
  | [], _ => rfl
  | .record (field :: fields) :: items, h => by
    have hitem := all_writeFields (column + 2) (field :: fields) h.2.1.2
    rw [writeFields, List.all_append, List.all_append, all_spaces, Bool.true_and] at hitem
    rw [writeItems, writeItem, List.all_append, List.all_append, all_spaces, List.all_cons,
      List.all_cons, List.all_append, hitem, all_writeItems column items h.2.2]
    rfl

theorem all_writeFields (column : Nat) : (fields : List (String × Outline)) → AreFields fields →
    (writeFields column fields).all isAllowed = true
  | [], _ => rfl
  | (key, value) :: fields, h => by
    rw [writeFields, writeField, List.all_append, List.all_append, all_spaces, List.all_append,
      List.all_cons, all_key h.1, all_writeValue column value h.2.1,
      all_writeFields column fields h.2.2]
    rfl

end

end Allowed

/-- What is written for an outline has the tokens of the outline. -/
theorem ofText?_write {fields : List (String × Outline)} (hne : fields ≠ [])
    (h : AreFields fields) : Token.ofText? (write fields) = some (tokensOf (.record fields)) := by
  have hall : (write fields).all isAllowed = true := all_writeFields 0 fields h
  rw [Token.ofText?, if_pos hall, Scan.run_write hne h, Option.map_some, List.reverse_reverse]

end DeclForest.Yaml
