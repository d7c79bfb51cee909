import DeclForest.Proofs.CommentLines
import Mathlib.Data.List.DropRight
import Mathlib.Data.List.Forall2

/-!
The shape of a comment's lines. Of the lines of the text, without the blanks behind them, those from
the first to the last that is not empty are kept, one for one; each loses blanks at its front only,
and a line that has more than blanks never loses all of it. The margin is the least indentation, so
one line starts at it; where indentation is ASCII, bytes are characters and all lines lose as many.
-/

namespace DeclForest.Text

variable {s line : List Char} {ls : List (List Char)}

theorem exists_edges_dropBlankEdges (ls : List (List Char)) : ∃ front back,
    ls = front ++ dropBlankEdges ls ++ back ∧ ∀ line ∈ front ++ back, line = [] := by
  have hback : ls.dropWhile List.isEmpty = dropBlankEdges ls ++
      (ls.dropWhile List.isEmpty).rtakeWhile List.isEmpty :=
    (List.rdropWhile_append_rtakeWhile (p := List.isEmpty)).symm
  refine ⟨ls.takeWhile List.isEmpty, (ls.dropWhile List.isEmpty).rtakeWhile List.isEmpty, ?_, ?_⟩
  · rw [List.append_assoc, ← hback, List.takeWhile_append_dropWhile]
  · intro line hline
    apply List.isEmpty_iff.mp
    rcases List.mem_append.mp hline with h | h
    · exact List.mem_takeWhile_imp h
    · exact List.mem_rtakeWhile_imp h

theorem dropBlankEdges_eq_nil_iff : dropBlankEdges ls = [] ↔ ∀ line ∈ ls, line = [] := by
  constructor
  · intro h line hline
    by_contra hne
    simpa [h] using mem_dropBlankEdges hline hne
  · intro h
    have hfront : ls.dropWhile List.isEmpty = [] :=
      List.dropWhile_eq_nil_iff.mpr fun line hline => List.isEmpty_iff.mpr (h line hline)
    rw [dropBlankEdges, hfront]
    rfl

/-- The lines that are kept start and end with a line that is not empty. -/
theorem ends_dropBlankEdges (h : dropBlankEdges ls ≠ []) :
    (dropBlankEdges ls).head h ≠ [] ∧ (dropBlankEdges ls).getLast h ≠ [] := by
  have hprefix : dropBlankEdges ls <+: ls.dropWhile List.isEmpty :=
    List.rdropWhile_prefix List.isEmpty _
  constructor
  · have hfirst := List.head_dropWhile_not List.isEmpty (w := hprefix.ne_nil h)
    rw [← hprefix.head h] at hfirst
    exact List.isEmpty_eq_false_iff.mp hfirst
  · have hlast := List.rdropWhile_last_not List.isEmpty (ls.dropWhile List.isEmpty) h
    exact fun hnil => hlast (List.isEmpty_iff.mpr hnil)

/-- A line that ends in no blank has more than blanks, if it has anything. -/
theorem trimStart_trimEnd_ne_nil (h : trimEnd s ≠ []) : trimStart (trimEnd s) ≠ [] := by
  intro hnil
  have hblank := List.dropWhile_eq_nil_iff.mp hnil _ (List.getLast_mem h)
  exact List.rdropWhile_last_not isBlank s h hblank

theorem ne_nil_of_trimStart {blanks : List Char} (hb : ∀ c ∈ blanks, isBlank c = true)
    (h : trimStart (blanks ++ line) ≠ []) : line ≠ [] := by
  rintro rfl
  rw [List.append_nil] at h
  exact h (List.dropWhile_eq_nil_iff.mpr hb)

theorem exists_indentation_eq_margin (h : ∃ line ∈ ls, line ≠ []) :
    ∃ line ∈ ls, line ≠ [] ∧ indentation line = margin ls := by
  unfold margin
  cases hmin : ((ls.filter fun line => !line.isEmpty).map indentation).min? with
  | none =>
    obtain ⟨line, hline, hne⟩ := h
    have hnone := List.map_eq_nil_iff.mp (List.min?_eq_none_iff.mp hmin)
    exact absurd (List.filter_eq_nil_iff.mp hnone line hline) (by simpa using hne)
  | some least =>
    obtain ⟨line, hline, hl⟩ := List.mem_map.mp (List.min?_eq_some_iff.mp hmin).1
    obtain ⟨hmem, hne⟩ := List.mem_filter.mp hline
    exact ⟨line, hmem, by simpa using hne, hl⟩

theorem dropBytes?_append (cut rest : List Char) :
    dropBytes? (cut ++ rest) (byteLength cut) = some rest := by
  induction cut with
  | nil => simp [byteLength, dropBytes?]
  | cons c cut ih =>
    have hpos := c.utf8Size_pos
    obtain ⟨n, hn⟩ : ∃ n, byteLength (c :: cut) = n + 1 :=
      ⟨c.utf8Size + byteLength cut - 1, by rw [byteLength]; omega⟩
    have hrest : n + 1 - c.utf8Size = byteLength cut := by
      rw [← hn, byteLength]
      omega
    have hle : c.utf8Size ≤ n + 1 := by
      rw [← hn, byteLength]
      omega
    rw [hn, List.cons_append, dropBytes?, if_pos hle, hrest, ih]

/-- A line that is indented no further than the margin starts at it. -/
theorem cutMargin_indentation (line : List Char) :
    cutMargin (indentation line) line = trimStart line := by
  have h := dropBytes?_append (line.takeWhile isBlank) (trimStart line)
  rw [trimStart, List.takeWhile_append_dropWhile] at h
  rw [cutMargin, indentation, h]
  rfl

def IsAscii (c : Char) : Prop := c.toNat < 0x80

theorem byteLength_eq_length (h : ∀ c ∈ s, IsAscii c) : byteLength s = s.length := by
  induction s with
  | nil => rfl
  | cons c s ih =>
    have hc : c.utf8Size = 1 := by
      have hlt : c.toNat < 0x80 := h c List.mem_cons_self
      have hle : c.val ≤ 0x7f := by
        rw [UInt32.le_iff_toNat_le]
        exact Nat.le_of_lt_succ hlt
      simp [Char.utf8Size, hle]
    rw [byteLength, hc, ih fun x hx => h x (List.mem_cons_of_mem c hx), List.length_cons,
      Nat.add_comm]

/-- In ASCII indentation a margin of so many bytes is one of so many characters. -/
theorem cutMargin_of_ascii {width : Nat} (hascii : ∀ c ∈ line.takeWhile isBlank, IsAscii c)
    (hwidth : width ≤ indentation line) : cutMargin width line = line.drop width := by
  have hlength : width ≤ (line.takeWhile isBlank).length := by
    rwa [indentation, byteLength_eq_length hascii] at hwidth
  have hcut : line.take width = (line.takeWhile isBlank).take width := by
    rw [List.prefix_iff_eq_take.mp (List.takeWhile_prefix isBlank (l := line)), List.take_take,
      Nat.min_eq_left hlength]
  have hbytes : byteLength (line.take width) = width := by
    rw [hcut, byteLength_eq_length fun c hc => hascii c (List.mem_of_mem_take hc),
      List.length_take, Nat.min_eq_left hlength]
  have h := dropBytes?_append (line.take width) (line.drop width)
  rw [List.take_append_drop, hbytes] at h
  rw [cutMargin, h]
  rfl

/-- A line of a text and what becomes of it: blanks go from its front, and never all of a line that
has something else. -/
structure Reindented (source line : List Char) : Prop where
  suffix : ∃ blanks, (∀ c ∈ blanks, isBlank c = true) ∧ source = blanks ++ line
  empty_iff : line = [] ↔ source = []

/-- The lines of a comment against the lines of the text that are kept for them. -/
structure LosesOnlyMargin (s : List Char) (kept : List (List Char)) : Prop where
  /-- Before and behind the lines that are kept there are blank ones only. -/
  edges : ∃ front back, (lines s).map trimEnd = front ++ kept ++ back ∧
    ∀ line ∈ front ++ back, line = []
  kept_ends : ∃ h : kept ≠ [], kept.head h ≠ [] ∧ kept.getLast h ≠ []
  line_by_line : List.Forall₂ Reindented kept (commentLines s)
  ends : ∃ h : commentLines s ≠ [],
    (commentLines s).head h ≠ [] ∧ (commentLines s).getLast h ≠ []
  flush : ∃ line ∈ commentLines s, ∃ c rest, line = c :: rest ∧ isBlank c = false
  /-- Where only ASCII indents, the same number of characters goes from each line. -/
  evenly : (∀ source ∈ kept, ∀ c ∈ source.takeWhile isBlank, IsAscii c) → ∃ width,
    List.Forall₂ (fun source line => source ≠ [] →
      width ≤ source.length ∧ line = source.drop width) kept (commentLines s)

theorem forall₂_map {α β : Type} {R : α → β → Prop} {f : α → β} {as : List α}
    (h : ∀ a ∈ as, R a (f a)) : List.Forall₂ R as (as.map f) := by
  rw [List.forall₂_map_right_iff, List.forall₂_same]
  exact h

theorem reindented_cutMargin {kept : List (List Char)}
    (hkept : ∀ line ∈ kept, line ≠ [] → trimStart line ≠ []) (h : line ∈ kept) :
    Reindented line (cutMargin (margin kept) line) := by
  have hwidth : line = [] ∨ margin kept ≤ indentation line :=
    or_iff_not_imp_left.mpr fun hne => margin_le h hne
  obtain ⟨blanks, hb, hline⟩ := exists_blanks_cutMargin hwidth
  refine ⟨⟨blanks, hb, hline⟩, ?_, ?_⟩
  · intro hnil
    by_contra hne
    have hmore := hkept line h hne
    rw [hline] at hmore
    exact ne_nil_of_trimStart hb hmore hnil
  · intro hnil
    rw [hnil] at hline
    rw [hnil]
    exact (List.append_eq_nil_iff.mp hline.symm).2

/-- Nothing but blank edges and shared indentation is taken from a comment. -/
theorem commentLines_losesOnlyMargin (s : List Char) :
    (commentLines s = [] ↔ ∀ line ∈ (lines s).map trimEnd, line = []) ∧
      (commentLines s ≠ [] → ∃ kept, LosesOnlyMargin s kept) := by
  have hnil : commentLines s = [] ↔ dropBlankEdges ((lines s).map trimEnd) = [] :=
    List.map_eq_nil_iff
  refine ⟨hnil.trans dropBlankEdges_eq_nil_iff, fun hne => ?_⟩
  obtain ⟨kept, hkept⟩ : ∃ kept, kept = dropBlankEdges ((lines s).map trimEnd) := ⟨_, rfl⟩
  have hlines : commentLines s = kept.map (cutMargin (margin kept)) := by rw [hkept]; rfl
  have hsome : kept ≠ [] := fun h => hne (hnil.mpr (hkept ▸ h))
  have hends : kept.head hsome ≠ [] ∧ kept.getLast hsome ≠ [] := by
    subst hkept
    exact ends_dropBlankEdges hsome
  have hmore : ∀ line ∈ kept, line ≠ [] → trimStart line ≠ [] := by
    intro line hline hline'
    rw [hkept] at hline
    obtain ⟨source, -, rfl⟩ := List.mem_map.mp (mem_of_mem_dropBlankEdges hline)
    exact trimStart_trimEnd_ne_nil hline'
  have hcut : ∀ line ∈ kept, Reindented line (cutMargin (margin kept) line) :=
    fun line hline => reindented_cutMargin hmore hline
  refine ⟨kept, ?_, ⟨hsome, hends⟩, ?_, ?_, ?_, ?_⟩
  · rw [hkept]
    exact exists_edges_dropBlankEdges _
  · rw [hlines]
    exact forall₂_map hcut
  · refine ⟨hne, ?_⟩
    simp only [hlines, List.head_map, List.getLast_map]
    exact ⟨fun h => hends.1 ((hcut _ (List.head_mem hsome)).empty_iff.mp h),
      fun h => hends.2 ((hcut _ (List.getLast_mem hsome)).empty_iff.mp h)⟩
  · obtain ⟨line, hline, hline', hmargin⟩ :=
      exists_indentation_eq_margin ⟨_, List.head_mem hsome, hends.1⟩
    obtain ⟨c, rest, hstart⟩ := List.exists_cons_of_ne_nil (hmore line hline hline')
    refine ⟨c :: rest, ?_, c, rest, rfl, ?_⟩
    · rw [hlines, ← hstart, ← cutMargin_indentation, hmargin]
      exact List.mem_map_of_mem hline
    · have hfirst := List.head?_dropWhile_not isBlank line
      rw [show line.dropWhile isBlank = c :: rest from hstart] at hfirst
      simpa using hfirst
  · intro hascii
    refine ⟨margin kept, ?_⟩
    rw [hlines]
    refine forall₂_map fun source hsource hsource' => ?_
    have hwidth := margin_le hsource hsource'
    refine ⟨?_, cutMargin_of_ascii (hascii source hsource) hwidth⟩
    rw [indentation, byteLength_eq_length (hascii source hsource)] at hwidth
    exact hwidth.trans (List.takeWhile_prefix isBlank).length_le

/-- A margin of two bytes would end inside the first blank. -/
example : commentStrings "\n\u3000a\n\n  b \n" = ["a", "", "b"] := by decide +kernel

end DeclForest.Text
