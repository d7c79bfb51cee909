import DeclForest.Proofs.CommentMargin
import DeclForest.Proofs.Tame

/-!
Lines of comments that are made into lines of comments again. What `commentLines` makes of a text is
settled: no line has blanks behind it, the outermost lines are not empty and one line stands at the
margin. Settled lines that are joined are split at the same places, nothing is left to trim, and
their margin is zero, so they come out as they went in.
-/

namespace DeclForest.Text

variable {s line : List Char} {ls : List (List Char)}

/-- A line that is not split any further and loses nothing to the line feed behind it. -/
structure Unbroken (line : List Char) : Prop where
  no_feed : '\n' ∉ line
  no_return : line.getLast? ≠ some '\r'

theorem Unbroken.of_cons {c : Char} (h : Unbroken (c :: line)) : Unbroken line := by
  refine ⟨fun hfeed => h.no_feed (List.mem_cons_of_mem c hfeed), fun hreturn => ?_⟩
  have hne : line ≠ [] := by
    rintro rfl
    simp at hreturn
  apply h.no_return
  rw [List.getLast?_cons, hreturn]
  rfl

theorem Unbroken.behind {front : List Char} (h : Unbroken line) (hne : line ≠ [])
    (hf : '\n' ∉ front) : Unbroken (front ++ line) := by
  constructor
  · intro hfeed
    rcases List.mem_append.mp hfeed with hfeed | hfeed
    · exact hf hfeed
    · exact h.no_feed hfeed
  · rw [List.getLast?_append_of_ne_nil _ hne]
    exact h.no_return

theorem Unbroken.append_feed (h : Unbroken line) (rest : List Char) :
    lines (line ++ '\n' :: rest) = line :: lines rest := by
  induction line with
  | nil => rw [List.nil_append, lines]
  | cons c line ih =>
    have hc : c ≠ '\n' := by
      rintro rfl
      exact h.no_feed List.mem_cons_self
    have hreturn : ∀ more, c = '\r' → line ++ '\n' :: rest ≠ '\n' :: more := by
      rintro more rfl hmore
      cases line with
      | nil => exact h.no_return rfl
      | cons x line =>
        obtain rfl := (List.cons.inj hmore).1
        exact h.no_feed (List.mem_cons_of_mem _ List.mem_cons_self)
    rw [List.cons_append, lines, ih h.of_cons]
    · exact hc
    · exact hreturn

theorem lines_of_no_feed (h : '\n' ∉ line) (hne : line ≠ []) : lines line = [line] := by
  induction line with
  | nil => exact absurd rfl hne
  | cons c line ih =>
    have hc : c ≠ '\n' := by
      rintro rfl
      exact h List.mem_cons_self
    have hrest : '\n' ∉ line := fun hfeed => h (List.mem_cons_of_mem c hfeed)
    have hreturn : ∀ more, c = '\r' → line ≠ '\n' :: more := by
      rintro more - rfl
      exact hrest List.mem_cons_self
    rw [lines]
    · by_cases hnil : line = []
      · rw [hnil, lines]
      · rw [ih hrest hnil]
    · exact hc
    · exact hreturn

/-- Lines that are joined are split at the same places again. -/
theorem lines_intercalate (h : ∀ line ∈ ls, Unbroken line)
    (hlast : ∀ hne : ls ≠ [], ls.getLast hne ≠ []) : lines (['\n'].intercalate ls) = ls := by
  induction ls with
  | nil => rfl
  | cons line ls ih =>
    have hline := h line List.mem_cons_self
    cases ls with
    | nil =>
      have hne : line ≠ [] := hlast (List.cons_ne_nil _ _)
      simpa using lines_of_no_feed hline.no_feed hne
    | cons next ls =>
      have hrest := ih (fun x hx => h x (List.mem_cons_of_mem line hx)) fun hne => by
        simpa using hlast (List.cons_ne_nil line _)
      rw [List.intercalate_cons_cons, List.append_assoc, List.singleton_append,
        hline.append_feed, hrest]

structure Settled (ls : List (List Char)) : Prop where
  no_feed : ∀ line ∈ ls, '\n' ∉ line
  trimmed : ∀ line ∈ ls, trimEnd line = line
  ends : ∀ h : ls ≠ [], ls.head h ≠ [] ∧ ls.getLast h ≠ []
  flush : ls ≠ [] → ∃ line ∈ ls, ∃ c rest, line = c :: rest ∧ isBlank c = false

theorem trimEnd_eq_self_iff :
    trimEnd line = line ↔ ∀ h : line ≠ [], isBlank (line.getLast h) = false := by
  have h : trimEnd line = line ↔ _ := List.rdropWhile_eq_self_iff (p := isBlank)
  simpa using h

namespace Settled

variable (h : Settled ls)

include h

theorem unbroken (hl : line ∈ ls) : Unbroken line := by
  refine ⟨h.no_feed line hl, fun hreturn => ?_⟩
  have hne : line ≠ [] := by
    rintro rfl
    simp at hreturn
  have hlast := trimEnd_eq_self_iff.mp (h.trimmed line hl) hne
  rw [List.getLast?_eq_some_getLast hne, Option.some.injEq] at hreturn
  rw [hreturn] at hlast
  exact absurd hlast (by decide)

theorem dropBlankEdges_eq : dropBlankEdges ls = ls := by
  have hfront : ls.dropWhile List.isEmpty = ls := by
    apply List.dropWhile_eq_self_iff.mpr
    intro hpos
    have hne : ls ≠ [] := List.ne_nil_of_length_pos hpos
    simpa [List.head_eq_getElem] using (h.ends hne).1
  have hback : ls.rdropWhile List.isEmpty = ls := by
    apply List.rdropWhile_eq_self_iff.mpr
    intro hne
    simpa using (h.ends hne).2
  rw [dropBlankEdges, hfront]
  exact hback

theorem margin_eq_zero : margin ls = 0 := by
  by_cases hne : ls = []
  · rw [hne]
    rfl
  · obtain ⟨line, hl, c, rest, rfl, hc⟩ := h.flush hne
    have hle := margin_le hl (List.cons_ne_nil c rest)
    have hzero : indentation (c :: rest) = 0 := by simp [indentation, hc, byteLength]
    omega

/-- What is settled comes out as it went in. -/
theorem commentLines_intercalate : commentLines (['\n'].intercalate ls) = ls := by
  have hlines : lines (['\n'].intercalate ls) = ls :=
    lines_intercalate (fun _ => h.unbroken) fun hne => (h.ends hne).2
  have htrim : ls.map trimEnd = ls := (List.map_congr_left h.trimmed).trans (List.map_id' ls)
  have hcut : ∀ line : List Char, cutMargin 0 line = line := by
    intro line
    simp [cutMargin, dropBytes?]
  rw [commentLines, hlines, htrim, h.dropBlankEdges_eq, h.margin_eq_zero]
  exact List.map_id'' hcut ls

end Settled

theorem no_feed_of_mem_commentLines (h : line ∈ commentLines s) : '\n' ∉ line := by
  obtain ⟨source, hsource, blanks, -, htrim⟩ := exists_of_mem_commentLines h
  intro hfeed
  have hin : '\n' ∈ trimEnd source := htrim ▸ List.mem_append_right blanks hfeed
  have hpre : trimEnd source <+: source := List.rdropWhile_prefix isBlank source
  exact not_mem_of_mem_lines hsource (hpre.subset hin)

theorem trimEnd_of_mem_commentLines (h : line ∈ commentLines s) : trimEnd line = line := by
  obtain ⟨source, -, blanks, -, htrim⟩ := exists_of_mem_commentLines h
  apply trimEnd_eq_self_iff.mpr
  intro hne
  have hsource : trimEnd (trimEnd source) = trimEnd source :=
    List.rdropWhile_idempotent isBlank source
  have hlast := trimEnd_eq_self_iff.mp hsource
  simp only [htrim] at hlast
  simpa [List.getLast_append_of_ne_nil _ hne] using hlast (by simp [hne])

def keptLines (s : List Char) : List (List Char) := dropBlankEdges ((lines s).map trimEnd)

theorem commentLines_eq_map (s : List Char) :
    commentLines s = (keptLines s).map (cutMargin (margin (keptLines s))) := rfl

theorem trimStart_ne_nil_of_mem_keptLines (h : line ∈ keptLines s) (hne : line ≠ []) :
    trimStart line ≠ [] := by
  obtain ⟨source, -, rfl⟩ := List.mem_map.mp (mem_of_mem_dropBlankEdges h)
  exact trimStart_trimEnd_ne_nil hne

theorem reindented_of_mem_keptLines (h : line ∈ keptLines s) :
    Reindented line (cutMargin (margin (keptLines s)) line) :=
  reindented_cutMargin (fun _ => trimStart_ne_nil_of_mem_keptLines) h

theorem ends_commentLines (h : commentLines s ≠ []) :
    (commentLines s).head h ≠ [] ∧ (commentLines s).getLast h ≠ [] := by
  have hkept : keptLines s ≠ [] := fun hnil => h (List.map_eq_nil_iff.mpr hnil)
  obtain ⟨hfirst, hlast⟩ := ends_dropBlankEdges hkept
  simp only [commentLines_eq_map, List.head_map, List.getLast_map]
  constructor
  · intro hnil
    exact hfirst ((reindented_of_mem_keptLines (List.head_mem hkept)).empty_iff.mp hnil)
  · intro hnil
    exact hlast ((reindented_of_mem_keptLines (List.getLast_mem hkept)).empty_iff.mp hnil)

/-- The line that is indented least stands at the margin afterwards. -/
theorem exists_flush (h : commentLines s ≠ []) :
    ∃ line ∈ commentLines s, ∃ c rest, line = c :: rest ∧ isBlank c = false := by
  have hkept : keptLines s ≠ [] := fun hnil => h (List.map_eq_nil_iff.mpr hnil)
  obtain ⟨line, hl, hne, hmargin⟩ :=
    exists_indentation_eq_margin ⟨_, List.head_mem hkept, (ends_dropBlankEdges hkept).1⟩
  obtain ⟨c, rest, hstart⟩ :=
    List.exists_cons_of_ne_nil (trimStart_ne_nil_of_mem_keptLines hl hne)
  have hcut : cutMargin (margin (keptLines s)) line = c :: rest := by
    rw [← hmargin, cutMargin_indentation, hstart]
  have hfirst := List.head?_dropWhile_not isBlank line
  rw [show line.dropWhile isBlank = c :: rest from hstart] at hfirst
  refine ⟨c :: rest, ?_, c, rest, rfl, by simpa using hfirst⟩
  rw [commentLines_eq_map, ← hcut]
  exact List.mem_map_of_mem hl

theorem settled_commentLines (s : List Char) : Settled (commentLines s) where
  no_feed _ := no_feed_of_mem_commentLines
  trimmed _ := trimEnd_of_mem_commentLines
  ends := ends_commentLines
  flush := exists_flush

end DeclForest.Text
