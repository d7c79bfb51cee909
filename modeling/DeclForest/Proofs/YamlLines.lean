import DeclForest.Yaml.Scalar
import DeclForest.Yaml.Writer

/-!
Lines of written YAML, as far as they consist of printable ASCII characters: what separates words
within a line, and how a cursor gets from the end of a line to the first character of the next.
-/

namespace DeclForest.Yaml

def isAscii (c : Char) : Bool := 0x20 ≤ c.toNat && c.toNat ≤ 0x7E

namespace Cursor

variable {c : Cursor} {m n : Nat}

@[simp] theorem skip_rest (c : Cursor) (n : Nat) : (c.skip n).rest = c.rest.drop n := rfl

@[simp] theorem skip_column (c : Cursor) (n : Nat) : (c.skip n).column = c.column + n := rfl

@[simp] theorem skip_index (c : Cursor) (n : Nat) : (c.skip n).index = c.index + n := rfl

@[simp] theorem skip_line (c : Cursor) (n : Nat) : (c.skip n).line = c.line := rfl

@[simp] theorem skip_skip (c : Cursor) (m n : Nat) : (c.skip m).skip n = c.skip (m + n) := by
  simp [skip, Nat.add_assoc]

end Cursor

variable {c x : Char} {s w text rest : List Char} {column : Nat}

theorem ne_of_isAscii (h : isAscii c = true) (hx : isAscii x = false) : c ≠ x := by
  rintro rfl
  simp [h] at hx

theorem isBreak_of_isAscii (h : isAscii c = true) : isBreak c = false := by
  have hfeed : c ≠ '\n' := ne_of_isAscii h rfl
  have hreturn : c ≠ '\r' := ne_of_isAscii h rfl
  have hnext : c ≠ '\u0085' := ne_of_isAscii h rfl
  have hline : c ≠ '\u2028' := ne_of_isAscii h rfl
  have hparagraph : c ≠ '\u2029' := ne_of_isAscii h rfl
  simp [isBreak, hfeed, hreturn, hnext, hline, hparagraph]

theorem isBlank_of_isAscii (h : isAscii c = true) : isBlank c = decide (c = ' ') := by
  have htab : c ≠ '\t' := ne_of_isAscii h rfl
  simp [isBlank, htab]

theorem isGap_of_isAscii (h : isAscii c = true) : isGap c = decide (c = ' ') := by
  rw [isGap, isBlank_of_isAscii h, isBreak_of_isAscii h, Bool.or_false]

theorem isAllowed_of_isAscii (h : isAscii c = true) : isAllowed c = true := by
  simp only [isAscii, isAllowed, Bool.and_eq_true, decide_eq_true_eq, Bool.or_eq_true] at h ⊢
  simp [h]

theorem isPrintable_of_isAscii (h : isAscii c = true) : Style.isPrintable c = true := by
  have htab : c ≠ '\t' := ne_of_isAscii h rfl
  have hreturn : c ≠ '\r' := ne_of_isAscii h rfl
  have hnext : c ≠ '\u0085' := ne_of_isAscii h rfl
  have hmark : c ≠ '\ufeff' := ne_of_isAscii h rfl
  simp [Style.isPrintable, isAllowed_of_isAscii h, htab, hreturn, hnext, hmark]

theorem breakAt_cons (h : isBreak x = false) (rest : List Char) : breakAt (x :: rest) = none := by
  simp only [isBreak, Bool.or_eq_false_iff, decide_eq_false_iff_not] at h
  obtain ⟨⟨⟨⟨hfeed, hreturn⟩, hnext⟩, hline⟩, hparagraph⟩ := h
  rw [breakAt]
  · simp [isBreak, hfeed, hreturn, hnext, hline, hparagraph]
  · rintro _ rfl
    exact absurd rfl hreturn

def isKeyChar (c : Char) : Bool := c.isLower || c = '_'

def indentOf (text : List Char) : Nat := (text.takeWhile (· = ' ')).length

def unindented (text : List Char) : List Char := text.dropWhile (· = ' ')

/-- What follows behind the end of a line: a line that starts with a key or an entry, or nothing. -/
structure IsLine (text : List Char) : Prop where
  start : ∀ x, (unindented text).head? = some x → x = '-' ∨ isKeyChar x = true
  nil : unindented text = [] → text = []

namespace Cursor

/-- The cursor at the first character of the next line, from the line feed before it. -/
def toLine (c : Cursor) : Cursor :=
  let text := c.rest.tail
  ⟨unindented text, c.index + 1 + indentOf text, c.line + 1, indentOf text⟩

end Cursor

theorem isAscii_of_isKeyChar (h : isKeyChar x = true) : isAscii x = true := by
  rcases Bool.or_eq_true_iff.mp h with hlower | hdash
  · obtain ⟨hlow, hhigh⟩ := Bool.and_eq_true_iff.mp hlower
    have hlow : 97 ≤ x.toNat := of_decide_eq_true hlow
    have hhigh : x.toNat ≤ 122 := of_decide_eq_true hhigh
    simp only [isAscii, Bool.and_eq_true, decide_eq_true_eq]
    omega
  · obtain rfl := of_decide_eq_true hdash
    rfl

theorem ne_of_isKeyChar (h : isKeyChar c = true) (hx : isKeyChar x = false) : c ≠ x := by
  rintro rfl
  simp [h] at hx

structure Starts (x : Char) : Prop where
  ascii : isAscii x = true
  space : x ≠ ' '
  hash : x ≠ '#'

theorem starts_of_isKeyChar (h : isKeyChar x = true) : Starts x :=
  ⟨isAscii_of_isKeyChar h, ne_of_isKeyChar h rfl, ne_of_isKeyChar h rfl⟩

theorem IsLine.starts (h : IsLine text) (x : Char) (hx : (unindented text).head? = some x) :
    Starts x := by
  rcases h.start x hx with rfl | hkey
  · exact ⟨rfl, by decide, by decide⟩
  · exact starts_of_isKeyChar hkey

theorem spaces_append_unindented (text : List Char) :
    spaces (indentOf text) ++ unindented text = text := by
  induction text with
  | nil => rfl
  | cons c text ih =>
    by_cases hc : c = ' '
    · subst hc
      exact congrArg (' ' :: ·) ih
    · simp [indentOf, unindented, hc, spaces]

theorem takeWhile_spaces {p : Char → Bool} (hp : p ' ' = true) (n : Nat)
    (hstop : ∀ x, rest.head? = some x → p x = false) :
    (spaces n ++ rest).takeWhile p = spaces n := by
  have hall : ∀ x ∈ spaces n, p x = true := fun x hx => by rwa [List.eq_of_mem_replicate hx]
  rw [List.takeWhile_append_of_pos hall]
  cases rest with
  | nil => simp
  | cons x rest => simp [hstop x rfl]

theorem Cursor.run_spaces {p : Char → Bool} {n : Nat} {c : Cursor} (hp : p ' ' = true)
    (hrest : c.rest = spaces n ++ rest) (hstop : ∀ x, rest.head? = some x → p x = false) :
    c.run p = (spaces n, c.skip n) := by
  rw [Cursor.run, hrest, takeWhile_spaces hp n hstop, spaces, List.length_replicate]

namespace Cursor

variable {c : Cursor}

theorem toLine_rest (hrest : c.rest = '\n' :: text) : c.toLine.rest = unindented text := by
  rw [toLine, hrest]
  rfl

theorem toLine_column (hrest : c.rest = '\n' :: text) : c.toLine.column = indentOf text := by
  rw [toLine, hrest]
  rfl

theorem nextLine_rest (hrest : c.rest = '\n' :: text) :
    c.nextLine.rest = spaces (indentOf text) ++ unindented text := by
  rw [nextLine, hrest, spaces_append_unindented]
  rfl

theorem atAnyMarker_of_column (h : 0 < c.column) : c.atAnyMarker = false := by
  simp [atAnyMarker, atMarker, Nat.pos_iff_ne_zero.mp h]

/-- Markers stand at the start of a line only, and are neither keys nor entries. -/
theorem atAnyMarker_eq_false {more : List Char} (hrest : c.rest = x :: more)
    (hplace : 0 < c.column ∨ isKeyChar x = true ∨ gapAt more = true) :
    c.atAnyMarker = false := by
  rcases hplace with hcolumn | hkey | hgap
  · exact atAnyMarker_of_column hcolumn
  · have hdash : x ≠ '-' := ne_of_isKeyChar hkey rfl
    have hdot : x ≠ '.' := ne_of_isKeyChar hkey rfl
    simp [atAnyMarker, atMarker, startsWith, hrest, List.isPrefixOf, hdash.symm, hdot.symm]
  · cases more with
    | nil => simp [atAnyMarker, atMarker, startsWith, hrest, List.isPrefixOf]
    | cons y more =>
      have hdash : '-' ≠ y := fun h => absurd hgap (by rw [← h]; exact Bool.false_ne_true)
      have hdot : '.' ≠ y := fun h => absurd hgap (by rw [← h]; exact Bool.false_ne_true)
      simp [atAnyMarker, atMarker, startsWith, hrest, List.isPrefixOf, hdash, hdot]

theorem skip_nextLine (hrest : c.rest = '\n' :: text) :
    c.nextLine.skip (indentOf text) = c.toLine := by
  have hdrop := congrArg (List.drop (indentOf text)) (spaces_append_unindented text)
  rw [List.drop_left' (by simp [spaces])] at hdrop
  rw [nextLine, toLine, hrest]
  simp [skip, breakAt, isBreak, ← hdrop]

end Cursor

namespace Gap

/-- Blanks inside a line are a gap that stays as it is. -/
theorem read_spaces {n : Nat} {c : Cursor} (hrest : c.rest = spaces n ++ x :: rest)
    (hx : isGap x = false) : Gap.read c = (⟨spaces n, []⟩, c.skip n) := by
  obtain ⟨hblank, hbreak⟩ := Bool.or_eq_false_iff.mp hx
  have hrun : c.run isBlank = (spaces n, c.skip n) :=
    Cursor.run_spaces rfl hrest fun y hy => by rwa [← Option.some.inj hy]
  have hskip : (c.skip n).rest = x :: rest := by simp [hrest, spaces]
  have hbreaks : readBreaks (c.skip n).rest.length (c.skip n) = ([], c.skip n) := by
    rw [hskip, List.length_cons, readBreaks, hskip, breakAt_cons hbreak]
  rw [Gap.read, hrun]
  simp only [hbreaks]

/-- The end of a line and the indentation of the next one are a gap with one break. -/
theorem read_nextLine {c : Cursor} (h : IsLine text) (hrest : c.rest = '\n' :: text) :
    Gap.read c = (⟨[], [('\n', spaces (indentOf text))]⟩, c.toLine) := by
  have hstart : ∀ x, (unindented text).head? = some x → isGap x = false := fun x hx => by
    rw [isGap_of_isAscii (h.starts x hx).ascii, decide_eq_false (h.starts x hx).space]
  have hline : c.nextLine.run isBlank = (spaces (indentOf text), c.toLine) := by
    rw [Cursor.run_spaces rfl (Cursor.nextLine_rest hrest) fun x hx =>
      (Bool.or_eq_false_iff.mp (hstart x hx)).1, Cursor.skip_nextLine hrest]
  have hbreaks : ∀ n, readBreaks n c.toLine = ([], c.toLine) := by
    intro n
    cases n with
    | zero => rfl
    | succ n =>
      rw [readBreaks, Cursor.toLine_rest hrest]
      cases hu : unindented text with
      | nil => rfl
      | cons x rest =>
        rw [breakAt_cons (Bool.or_eq_false_iff.mp (hstart x (by rw [hu]; rfl))).2]
  have hrun : c.run isBlank = ([], c) := by
    rw [Cursor.run, hrest]
    rfl
  rw [Gap.read, hrun]
  simp only [hrest, List.length_cons, readBreaks, hline, hbreaks]
  rfl

end Gap

end DeclForest.Yaml
