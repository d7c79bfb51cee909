import DeclForest.Json.Value
import Mathlib.Data.List.Basic

/-!
JSON texts as they are written, read back. The scan of a written outline gives the tokens of the
outline, whatever stands around it, because a string ends at the first quote that is not escaped and
nothing else is longer than one character; the reading of these tokens puts the value of the outline
into whatever bracket is open.
-/

namespace DeclForest.Json

mutual

def tokensOf : Outline → List Token
  | .text content => [.text (some content)]
  | .list [] => [.openList, .closeList]
  | .list (item :: items) => .openList :: tokensOf item ++ itemTokens items ++ [.closeList]
  | .record [] => [.openObject, .closeObject]
  | .record ((key, value) :: fields) =>
    .openObject :: .text (some key) :: .colon :: tokensOf value ++ fieldTokens fields ++
      [.closeObject]

def itemTokens : List Outline → List Token
  | [] => []
  | item :: items => .comma :: tokensOf item ++ itemTokens items

def fieldTokens : List (String × Outline) → List Token
  | [] => []
  | (key, value) :: fields =>
    .comma :: .text (some key) :: .colon :: tokensOf value ++ fieldTokens fields

end

mutual

def valueOf : Outline → Value
  | .text content => .text (some content)
  | .list items => .list (itemValues items)
  | .record fields => .object (fieldValues fields)

def itemValues : List Outline → List Value
  | [] => []
  | item :: items => valueOf item :: itemValues items

def fieldValues : List (String × Outline) → List (Option String × Value)
  | [] => []
  | (key, value) :: fields => (some key, valueOf value) :: fieldValues fields

end

theorem itemValues_eq_map (items : List Outline) : itemValues items = items.map valueOf := by
  induction items with
  | nil => rfl
  | cons item items ih => rw [itemValues, ih, List.map_cons]

namespace Scan

variable {s n : Scan} {c : Char} {rest : List Char}

theorem run_cons_of_step {tokens : List Token} (h : s.step c = some (tokens, n)) :
    s.run (c :: rest) = (n.run rest).map (tokens ++ ·) := by
  simp only [run, h, Option.bind_eq_bind, Option.bind_some]
  cases n.run rest <;> rfl

theorem run_cons_of_silent (h : s.step c = some ([], n)) : s.run (c :: rest) = n.run rest := by
  rw [run_cons_of_step h]
  cases n.run rest <;> rfl

theorem run_newline (level : Nat) (rest : List Char) :
    between.run (newline level ++ rest) = between.run rest := by
  have hblanks : ∀ n, between.run (List.replicate n ' ' ++ rest) = between.run rest := by
    intro n
    induction n with
    | zero => rfl
    | succ n ih =>
      rw [List.replicate_succ, List.cons_append, run_cons_of_silent rfl, ih]
  rw [newline, List.cons_append, run_cons_of_silent rfl, hblanks]

theorem assemble_unit {n : Nat} (hn : n < 0xD800) (pieces : List Piece) :
    Piece.assemble (.unit n :: pieces) = (Piece.assemble pieces).map (Char.ofNat n :: ·) := by
  have hhigh : Piece.isHigh n = false := by simp [Piece.isHigh]; omega
  have hlow : Piece.isLow n = false := by simp [Piece.isLow]; omega
  cases pieces with
  | nil => simp [Piece.assemble, hhigh, hlow]
  | cons piece pieces => cases piece <;> simp [Piece.assemble, hhigh, hlow]

theorem run_code {n : Nat} (hn : n < 0x20) (pieces : List Piece) (rest : List Char) :
    (code pieces 3 0).run (Text.hex 4 n ++ rest) = (string (.unit n :: pieces)).run rest := by
  have hhex : ∀ n : Fin 0x20,
      Text.hex 4 n = ['0', '0', Nat.digitChar (n / 16), Nat.digitChar (n % 16)] := by decide
  have hzero : Text.hexDigit? '0' = some 0 := by decide
  have hfirst := Text.hexDigit?_digitChar (show n / 16 < 16 by omega)
  have hlast := Text.hexDigit?_digitChar (show n % 16 < 16 by omega)
  have hvalue : 16 * (n / 16) + n % 16 = n := by omega
  rw [hhex ⟨n, hn⟩]
  simp only [List.cons_append, List.nil_append]
  rw [run_cons_of_silent (n := code pieces 2 0) (by simp [step, hzero]),
    run_cons_of_silent (n := code pieces 1 0) (by simp [step, hzero]),
    run_cons_of_silent (n := code pieces 0 (n / 16)) (by simp [step, hfirst]),
    run_cons_of_silent (n := string (.unit n :: pieces)) (by simp [step, hlast, hvalue])]

/-- A character is escaped by a letter or by its number, or it is written as it is. -/
theorem escape_eq (c : Char) :
    (∃ letter, letter ≠ 'u' ∧ escaped? letter = some c ∧ Json.escape c = ['\\', letter]) ∨
    (c.toNat < 0x20 ∧ Json.escape c = '\\' :: 'u' :: Text.hex 4 c.toNat) ∨
    (c ≠ '"' ∧ c ≠ '\\' ∧ ¬c.toNat < 0x20 ∧ Json.escape c = [c]) := by
  unfold Json.escape
  split_ifs with hquote hslash hback hfeed hbreak hreturn htab hcontrol
  · exact .inl ⟨'"', by decide, by rw [hquote]; rfl, rfl⟩
  · exact .inl ⟨'\\', by decide, by rw [hslash]; rfl, rfl⟩
  · exact .inl ⟨'b', by decide, by rw [hback]; rfl, rfl⟩
  · exact .inl ⟨'f', by decide, by rw [hfeed]; rfl, rfl⟩
  · exact .inl ⟨'n', by decide, by rw [hbreak]; rfl, rfl⟩
  · exact .inl ⟨'r', by decide, by rw [hreturn]; rfl, rfl⟩
  · exact .inl ⟨'t', by decide, by rw [htab]; rfl, rfl⟩
  · exact .inr (.inl ⟨hcontrol, rfl⟩)
  · exact .inr (.inr ⟨hquote, hslash, hcontrol, rfl⟩)

/-- An escaped character is one piece of a string, and the piece stands for the character. -/
theorem exists_piece_of_escape (c : Char) : ∃ piece : Piece,
    (∀ pieces, Piece.assemble (piece :: pieces) = (Piece.assemble pieces).map (c :: ·)) ∧
    ∀ pieces rest,
      (string pieces).run (Json.escape c ++ rest) = (string (piece :: pieces)).run rest := by
  have hchar : ∀ pieces, Piece.assemble (.char c :: pieces) =
      (Piece.assemble pieces).map (c :: ·) := by
    intro pieces
    rw [Piece.assemble]
  rcases escape_eq c with ⟨letter, hu, hletter, hwritten⟩ | ⟨hcontrol, hwritten⟩ |
    ⟨hquote, hslash, hcontrol, hwritten⟩
  · refine ⟨.char c, hchar, ?_⟩
    intro pieces rest
    rw [hwritten, List.cons_append, List.cons_append, List.nil_append,
      run_cons_of_silent (n := escape pieces) rfl, run_cons_of_silent]
    simp [step, hu, hletter]
  · refine ⟨.unit c.toNat, ?_, ?_⟩
    · intro pieces
      rw [assemble_unit (by omega), Char.ofNat_toNat]
    · intro pieces rest
      rw [hwritten, List.cons_append, List.cons_append,
        run_cons_of_silent (n := escape pieces) rfl,
        run_cons_of_silent (n := code pieces 3 0) rfl, run_code hcontrol]
  · refine ⟨.char c, hchar, ?_⟩
    intro pieces rest
    rw [hwritten, List.singleton_append, run_cons_of_silent]
    simp [step, hquote, hslash, hcontrol]

theorem exists_pieces_of_escaped (chars : List Char) : ∃ written : List Piece,
    Piece.assemble written = some chars ∧
    ∀ pieces rest, (string pieces).run (chars.flatMap Json.escape ++ rest) =
      (string (written.reverse ++ pieces)).run rest := by
  induction chars with
  | nil => exact ⟨[], by rw [Piece.assemble], fun _ _ => rfl⟩
  | cons c chars ih =>
    obtain ⟨written, hwritten, hrun⟩ := ih
    obtain ⟨piece, hpiece, hstep⟩ := exists_piece_of_escape c
    refine ⟨piece :: written, by rw [hpiece, hwritten, Option.map_some], ?_⟩
    intro pieces rest
    rw [List.flatMap_cons, List.append_assoc, hstep, hrun]
    simp

theorem run_quoted (s : String) (rest : List Char) :
    between.run (quoted s ++ rest) = (between.run rest).map (.text (some s) :: ·) := by
  obtain ⟨written, hwritten, hrun⟩ := exists_pieces_of_escaped s.toList
  have hclose : (string written.reverse).step '"' = some ([.text (some s)], between) := by
    simp [step, hwritten]
  have htext : quoted s ++ rest = '"' :: (s.toList.flatMap Json.escape ++ '"' :: rest) := by
    simp [quoted]
  rw [htext, run_cons_of_silent (n := string []) rfl, hrun, List.append_nil,
    run_cons_of_step hclose]
  rfl

end Scan

/-- Between two tokens the text is scanned as the tokens, whatever follows it. -/
def Scans (text : List Char) (tokens : List Token) : Prop :=
  ∀ rest, Scan.between.run (text ++ rest) = (Scan.between.run rest).map (tokens ++ ·)

theorem Scans.append {text more : List Char} {tokens others : List Token}
    (h : Scans text tokens) (hmore : Scans more others) :
    Scans (text ++ more) (tokens ++ others) := by
  intro rest
  rw [List.append_assoc, h, hmore, Option.map_map]
  simp only [Function.comp_def, List.append_assoc]

theorem scans_char {c : Char} {tokens : List Token}
    (h : Scan.between.step c = some (tokens, .between)) : Scans [c] tokens :=
  fun _ => Scan.run_cons_of_step h

theorem scans_newline (level : Nat) : Scans (newline level) [] := by
  intro rest
  rw [Scan.run_newline]
  cases Scan.between.run rest <;> rfl

theorem scans_quoted (s : String) : Scans (quoted s) [.text (some s)] :=
  fun rest => Scan.run_quoted s rest

theorem scans_field (key : String) {text : List Char} {tokens : List Token}
    (h : Scans text tokens) :
    Scans (quoted key ++ ':' :: ' ' :: text) (.text (some key) :: .colon :: tokens) := by
  have hcolon := (scans_char (c := ':') rfl).append (scans_char (c := ' ') rfl)
  exact (scans_quoted key).append (hcolon.append h)

mutual

theorem scans_write (level : Nat) : (o : Outline) → Scans (write level o) (tokensOf o)
  | .text content => by
    rw [write, tokensOf]
    exact scans_quoted content
  | .list [] => by
    rw [write, tokensOf]
    exact (scans_char (c := '[') rfl).append (scans_char (c := ']') rfl)
  | .list (item :: items) => by
    have hitems := (scans_write (level + 1) item).append (scans_writeItems (level + 1) items)
    have hclose := (scans_newline level).append (scans_char (c := ']') rfl)
    have hopen := (scans_char (c := '[') rfl).append (scans_newline (level + 1))
    simpa [write, tokensOf] using hopen.append (hitems.append hclose)
  | .record [] => by
    rw [write, tokensOf]
    exact (scans_char (c := '{') rfl).append (scans_char (c := '}') rfl)
  | .record ((key, value) :: fields) => by
    have hfield := scans_field key (scans_write (level + 1) value)
    have hfields := hfield.append (scans_writeFields (level + 1) fields)
    have hclose := (scans_newline level).append (scans_char (c := '}') rfl)
    have hopen := (scans_char (c := '{') rfl).append (scans_newline (level + 1))
    simpa [write, tokensOf] using hopen.append (hfields.append hclose)

theorem scans_writeItems (level : Nat) :
    (items : List Outline) → Scans (writeItems level items) (itemTokens items)
  | [] => by
    rw [writeItems, itemTokens]
    exact fun rest => by cases h : Scan.between.run rest <;> simp [h]
  | item :: items => by
    have hitem := (scans_newline level).append (scans_write level item)
    have hitems := hitem.append (scans_writeItems level items)
    simpa [writeItems, itemTokens] using (scans_char (c := ',') rfl).append hitems

theorem scans_writeFields (level : Nat) :
    (fields : List (String × Outline)) → Scans (writeFields level fields) (fieldTokens fields)
  | [] => by
    rw [writeFields, fieldTokens]
    exact fun rest => by cases h : Scan.between.run rest <;> simp [h]
  | (key, value) :: fields => by
    have hfield := (scans_newline level).append (scans_field key (scans_write level value))
    have hfields := hfield.append (scans_writeFields level fields)
    simpa [writeFields, fieldTokens] using (scans_char (c := ',') rfl).append hfields

end

theorem tokens?_write (o : Outline) : tokens? (write 0 o) = some (tokensOf o) := by
  have h := scans_write 0 o []
  rw [List.append_nil] at h
  rw [tokens?, h, Scan.run, Scan.finish, Option.map_some, List.append_nil]

namespace Reading

variable {frames : List Frame} {rest : List Token}

theorem run_cons_of_step {r n : Reading} {t : Token} (h : r.step t = some n) :
    r.run (t :: rest) = n.run rest := by
  rw [run, h, Option.bind_some]

theorem put_list (v : Value) (read : List Value) (frames : List Frame) :
    put v (.list read :: frames) = some ⟨.list (v :: read) :: frames, .afterValue, none⟩ := rfl

theorem put_field (v : Value) (read : List (Option String × Value)) (key : Option String)
    (frames : List Frame) : put v (.field read key :: frames) =
      some ⟨.object ((key, v) :: read) :: frames, .afterValue, none⟩ := rfl

/-- Where a bracket may close at once, an outline is read as where a value must follow. -/
theorem run_itemOrClose (o : Outline) :
    (Reading.mk frames .itemOrClose none).run (tokensOf o ++ rest) =
      (Reading.mk frames .value none).run (tokensOf o ++ rest) := by
  rcases o with s | (_ | ⟨item, items⟩) | (_ | ⟨⟨key, value⟩, fields⟩) <;>
    simp [tokensOf, run, step]

mutual

theorem run_tokensOf (frames : List Frame) (rest : List Token) : (o : Outline) →
    (Reading.mk frames .value none).run (tokensOf o ++ rest) =
      (put (valueOf o) frames).bind fun next => next.run rest
  | .text content => by
    rw [tokensOf, valueOf]
    rfl
  | .list [] => by
    rw [tokensOf, valueOf, itemValues]
    rfl
  | .list (item :: items) => by
    have htokens : tokensOf (.list (item :: items)) ++ rest =
        .openList :: (tokensOf item ++ (itemTokens items ++ .closeList :: rest)) := by
      simp [tokensOf]
    rw [htokens, run_cons_of_step (n := ⟨.list [] :: frames, .itemOrClose, none⟩) rfl,
      run_itemOrClose, run_tokensOf, put_list, Option.bind_some, run_itemTokens, run, valueOf,
      itemValues]
    simp [step, close]
  | .record [] => by
    rw [tokensOf, valueOf, fieldValues]
    rfl
  | .record ((key, value) :: fields) => by
    have htokens : tokensOf (.record ((key, value) :: fields)) ++ rest =
        .openObject :: .text (some key) :: .colon ::
          (tokensOf value ++ (fieldTokens fields ++ .closeObject :: rest)) := by
      simp [tokensOf]
    rw [htokens, run_cons_of_step (n := ⟨.object [] :: frames, .keyOrClose, none⟩) rfl,
      run_cons_of_step (n := ⟨.field [] (some key) :: frames, .colon, none⟩) rfl,
      run_cons_of_step (n := ⟨.field [] (some key) :: frames, .value, none⟩) rfl,
      run_tokensOf, put_field, Option.bind_some, run_fieldTokens, run, valueOf, fieldValues]
    simp [step, close]

theorem run_itemTokens (frames : List Frame) (rest : List Token) (read : List Value) :
    (items : List Outline) →
    (Reading.mk (.list read :: frames) .afterValue none).run (itemTokens items ++ rest) =
      (Reading.mk (.list ((itemValues items).reverse ++ read) :: frames) .afterValue none).run rest
  | [] => by
    rw [itemTokens, itemValues]
    rfl
  | item :: items => by
    have htokens : itemTokens (item :: items) ++ rest =
        .comma :: (tokensOf item ++ (itemTokens items ++ rest)) := by
      simp [itemTokens]
    rw [htokens, run_cons_of_step (n := ⟨.list read :: frames, .value, none⟩) rfl,
      run_tokensOf, put_list, Option.bind_some, run_itemTokens, itemValues]
    simp

theorem run_fieldTokens (frames : List Frame) (rest : List Token)
    (read : List (Option String × Value)) : (fields : List (String × Outline)) →
    (Reading.mk (.object read :: frames) .afterValue none).run (fieldTokens fields ++ rest) =
      (Reading.mk (.object ((fieldValues fields).reverse ++ read) :: frames) .afterValue none).run
        rest
  | [] => by
    rw [fieldTokens, fieldValues]
    rfl
  | (key, value) :: fields => by
    have htokens : fieldTokens ((key, value) :: fields) ++ rest =
        .comma :: .text (some key) :: .colon ::
          (tokensOf value ++ (fieldTokens fields ++ rest)) := by
      simp [fieldTokens]
    rw [htokens, run_cons_of_step (n := ⟨.object read :: frames, .key, none⟩) rfl,
      run_cons_of_step (n := ⟨.field read (some key) :: frames, .colon, none⟩) rfl,
      run_cons_of_step (n := ⟨.field read (some key) :: frames, .value, none⟩) rfl,
      run_tokensOf, put_field, Option.bind_some, run_fieldTokens, fieldValues]
    simp

end

end Reading

/-- A written outline is read back as its value. -/
theorem ofText?_write (o : Outline) :
    Value.ofText? (String.ofList (write 0 o)) = some (valueOf o) := by
  have hread : Reading.initial.run (tokensOf o) = some ⟨[], .afterValue, some (valueOf o)⟩ := by
    have h := Reading.run_tokensOf [] [] o
    rw [List.append_nil] at h
    exact h
  rw [Value.ofText?, String.toList_ofList, tokens?_write, Option.bind_some, Value.ofTokens?, hread]

mutual

def depth : Outline → Nat
  | .text _ => 0
  | .list items => 1 + itemsDepth items
  | .record fields => 1 + fieldsDepth fields

def itemsDepth : List Outline → Nat
  | [] => 0
  | item :: items => max (depth item) (itemsDepth items)

def fieldsDepth : List (String × Outline) → Nat
  | [] => 0
  | (_, value) :: fields => max (depth value) (fieldsDepth fields)

end

def Token.levelAfter (level : Nat) : Token → Nat
  | .openList | .openObject => level + 1
  | .closeList | .closeObject => level - 1
  | _ => level

def nesting (level : Nat) : List Token → Nat
  | [] => level
  | t :: rest => max level (nesting (t.levelAfter level) rest)

theorem le_nesting (level : Nat) (tokens : List Token) : level ≤ nesting level tokens := by
  cases tokens with
  | nil => exact Nat.le_refl level
  | cons t rest => exact Nat.le_max_left level _

mutual

theorem nesting_tokensOf (level : Nat) (rest : List Token) : (o : Outline) →
    nesting level (tokensOf o ++ rest) = max (level + depth o) (nesting level rest)
  | .text content => by simp [tokensOf, nesting, Token.levelAfter, depth]
  | .list [] => by
    simp only [tokensOf, List.cons_append, List.nil_append, nesting, Token.levelAfter, depth,
      itemsDepth, Nat.add_sub_cancel]
    omega
  | .list (item :: items) => by
    have htokens : tokensOf (.list (item :: items)) ++ rest =
        .openList :: (tokensOf item ++ (itemTokens items ++ .closeList :: rest)) := by
      simp [tokensOf]
    have hclose : nesting (level + 1) (.closeList :: rest) = max (level + 1) (nesting level rest) :=
      rfl
    have hopen : Token.levelAfter level .openList = level + 1 := rfl
    rw [htokens, nesting, hopen, nesting_tokensOf, nesting_itemTokens, hclose, depth, itemsDepth]
    omega
  | .record [] => by
    simp only [tokensOf, List.cons_append, List.nil_append, nesting, Token.levelAfter, depth,
      fieldsDepth, Nat.add_sub_cancel]
    omega
  | .record ((key, value) :: fields) => by
    have htokens : tokensOf (.record ((key, value) :: fields)) ++ rest =
        .openObject :: .text (some key) :: .colon ::
          (tokensOf value ++ (fieldTokens fields ++ .closeObject :: rest)) := by
      simp [tokensOf]
    have hclose : nesting (level + 1) (.closeObject :: rest) =
        max (level + 1) (nesting level rest) := rfl
    rw [htokens]
    simp only [nesting, Token.levelAfter]
    rw [nesting_tokensOf, nesting_fieldTokens, hclose, depth, fieldsDepth]
    omega

theorem nesting_itemTokens (level : Nat) (rest : List Token) : (items : List Outline) →
    nesting level (itemTokens items ++ rest) =
      max (level + itemsDepth items) (nesting level rest)
  | [] => by
    have hle := le_nesting level rest
    rw [itemTokens, itemsDepth, List.nil_append]
    omega
  | item :: items => by
    have htokens : itemTokens (item :: items) ++ rest =
        .comma :: (tokensOf item ++ (itemTokens items ++ rest)) := by
      simp [itemTokens]
    rw [htokens]
    simp only [nesting, Token.levelAfter]
    rw [nesting_tokensOf, nesting_itemTokens, itemsDepth]
    omega

theorem nesting_fieldTokens (level : Nat) (rest : List Token) :
    (fields : List (String × Outline)) →
    nesting level (fieldTokens fields ++ rest) =
      max (level + fieldsDepth fields) (nesting level rest)
  | [] => by
    have hle := le_nesting level rest
    rw [fieldTokens, fieldsDepth, List.nil_append]
    omega
  | (key, value) :: fields => by
    have htokens : fieldTokens ((key, value) :: fields) ++ rest =
        .comma :: .text (some key) :: .colon ::
          (tokensOf value ++ (fieldTokens fields ++ rest)) := by
      simp [fieldTokens]
    rw [htokens]
    simp only [nesting, Token.levelAfter]
    rw [nesting_tokensOf, nesting_fieldTokens, fieldsDepth]
    omega

end

end DeclForest.Json
