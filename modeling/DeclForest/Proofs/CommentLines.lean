import DeclForest.Text
import Mathlib.Data.List.Infix
import Mathlib.Data.List.TakeWhile

/-!
What the lines of a comment keep of its text. A piece of text without blanks stands in one of the
lines exactly if it stands in the text: splitting takes line ends away, trimming and cutting the
margin take blanks from the two ends of a line, and dropping the edges takes empty lines.
-/

namespace DeclForest.Text

/-- A piece of text that has no blanks, and therefore no line ends. -/
structure Solid (p : List Char) : Prop where
  ne_nil : p ≠ []
  solid : ∀ c ∈ p, isBlank c = false

variable {p s line : List Char} {c : Char}

theorem Solid.reverse (hp : Solid p) : Solid p.reverse :=
  ⟨by simpa using hp.ne_nil, fun c hc => hp.solid c (List.mem_reverse.mp hc)⟩

theorem eq_nil_of_isPrefix (hp : ∀ c ∈ p, isBlank c = false) (hc : isBlank c = true)
    (h : p <+: c :: s) : p = [] := by
  cases p with
  | nil => rfl
  | cons x p =>
    obtain ⟨rfl, -⟩ := List.cons_prefix_cons.mp h
    exact absurd hc (by simp [hp x List.mem_cons_self])

theorem Solid.infix_cons_iff (hp : Solid p) (hc : isBlank c = true) :
    p <:+: c :: s ↔ p <:+: s := by
  rw [List.infix_cons_iff]
  exact ⟨fun h => h.resolve_left fun hpre => hp.ne_nil (eq_nil_of_isPrefix hp.solid hc hpre), .inr⟩

/-- Blanks in front of a text do not matter. -/
theorem Solid.infix_append_iff (hp : Solid p) {blanks : List Char}
    (hb : ∀ c ∈ blanks, isBlank c = true) : p <:+: blanks ++ s ↔ p <:+: s := by
  induction blanks with
  | nil => rfl
  | cons c blanks ih =>
    rw [List.cons_append, hp.infix_cons_iff (hb c List.mem_cons_self),
      ih fun x hx => hb x (List.mem_cons_of_mem c hx)]

/-- Blanks behind a text do not matter. -/
theorem Solid.infix_append_blanks_iff (hp : Solid p) {blanks : List Char}
    (hb : ∀ c ∈ blanks, isBlank c = true) : p <:+: s ++ blanks ↔ p <:+: s := by
  rw [← List.reverse_infix, List.reverse_append,
    hp.reverse.infix_append_iff fun c hc => hb c (List.mem_reverse.mp hc), List.reverse_infix]

/-- A blank between two texts parts them. -/
theorem Solid.infix_append_blank_iff (hp : Solid p) (hc : isBlank c = true) {t : List Char} :
    p <:+: s ++ c :: t ↔ p <:+: s ∨ p <:+: t := by
  rw [List.infix_append_iff, hp.infix_cons_iff hc]
  constructor
  · rintro (h | h | ⟨front, back, rfl, hfront, hback⟩)
    · exact .inl h
    · exact .inr h
    · have hsolid : ∀ c ∈ back, isBlank c = false :=
        fun c hc => hp.solid c (List.mem_append_right front hc)
      obtain rfl := eq_nil_of_isPrefix hsolid hc hback
      rw [List.append_nil]
      exact .inl hfront.isInfix
  · rintro (h | h)
    · exact .inl h
    · exact .inr (.inl h)

theorem Solid.infix_trimStart_iff (hp : Solid p) : p <:+: trimStart s ↔ p <:+: s := by
  have hb : ∀ c ∈ s.takeWhile isBlank, isBlank c = true := fun c hc => List.mem_takeWhile_imp hc
  conv_rhs => rw [← List.takeWhile_append_dropWhile (p := isBlank) (l := s)]
  rw [hp.infix_append_iff hb]
  rfl

theorem Solid.infix_trimEnd_iff (hp : Solid p) : p <:+: trimEnd s ↔ p <:+: s := by
  have h := hp.reverse.infix_trimStart_iff (s := s.reverse)
  rw [List.reverse_infix, trimStart, ← List.reverse_reverse (List.dropWhile _ _),
    List.reverse_infix] at h
  exact h

theorem lines_nil_iff : lines s = [] ↔ s = [] := by
  unfold lines
  split <;> simp
  split <;> simp

theorem isPrefix_of_lines {first : List Char} {others : List (List Char)}
    (h : lines s = first :: others) : first <+: s := by
  fun_induction lines s generalizing first others with
  | case1 => simp at h
  | case2 rest ih =>
    obtain ⟨rfl, -⟩ := List.cons.inj h
    exact List.nil_prefix
  | case3 rest ih =>
    obtain ⟨rfl, -⟩ := List.cons.inj h
    exact List.nil_prefix
  | case4 c rest _ _ hnil _ =>
    obtain ⟨rfl, -⟩ := List.cons.inj h
    exact List.cons_prefix_cons.mpr ⟨rfl, List.nil_prefix⟩
  | case5 c rest _ _ line lines heq ih =>
    obtain ⟨rfl, -⟩ := List.cons.inj h
    exact List.cons_prefix_cons.mpr ⟨rfl, ih heq⟩

/-- What stands in front of a text and has no blanks is in front of the first line. -/
theorem isPrefix_first {first : List Char} {others : List (List Char)}
    (h : lines s = first :: others) (hp : ∀ c ∈ p, isBlank c = false) (hs : p <+: s) :
    p <+: first := by
  fun_induction lines s generalizing p first others with
  | case1 => simp at h
  | case2 rest ih =>
    obtain rfl := eq_nil_of_isPrefix hp (by decide) hs
    exact List.nil_prefix
  | case3 rest ih =>
    obtain rfl := eq_nil_of_isPrefix hp (by decide) hs
    exact List.nil_prefix
  | case4 c rest _ _ hnil _ =>
    obtain ⟨rfl, -⟩ := List.cons.inj h
    obtain rfl := lines_nil_iff.mp hnil
    exact hs
  | case5 c rest _ _ line others' heq ih =>
    obtain ⟨rfl, -⟩ := List.cons.inj h
    cases p with
    | nil => exact List.nil_prefix
    | cons x p =>
      obtain ⟨rfl, hrest⟩ := List.cons_prefix_cons.mp hs
      have hfirst := ih heq (fun c hc => hp c (List.mem_cons_of_mem x hc)) hrest
      exact List.cons_prefix_cons.mpr ⟨rfl, hfirst⟩

theorem infix_of_mem_lines (h : line ∈ lines s) : line <:+: s := by
  fun_induction lines s generalizing line with
  | case1 => simp at h
  | case2 rest ih =>
    rcases List.mem_cons.mp h with rfl | h
    · exact List.nil_infix
    · exact List.infix_cons (ih h)
  | case3 rest ih =>
    rcases List.mem_cons.mp h with rfl | h
    · exact List.nil_infix
    · exact List.infix_cons (List.infix_cons (ih h))
  | case4 c rest _ _ hnil _ =>
    obtain rfl := List.mem_singleton.mp h
    obtain rfl := lines_nil_iff.mp hnil
    exact List.infix_rfl
  | case5 c rest _ _ first others heq ih =>
    rw [heq] at ih
    rcases List.mem_cons.mp h with rfl | h
    · exact (List.cons_prefix_cons.mpr ⟨rfl, isPrefix_of_lines heq⟩).isInfix
    · exact List.infix_cons (ih (List.mem_cons_of_mem first h))

theorem Solid.exists_line (hp : Solid p) (h : p <:+: s) : ∃ line ∈ lines s, p <:+: line := by
  fun_induction lines s with
  | case1 => exact absurd (List.infix_nil.mp h) hp.ne_nil
  | case2 rest ih =>
    obtain ⟨line, hline, hin⟩ := ih ((hp.infix_cons_iff (by decide)).mp h)
    exact ⟨line, List.mem_cons_of_mem _ hline, hin⟩
  | case3 rest ih =>
    have hrest := (hp.infix_cons_iff (by decide)).mp ((hp.infix_cons_iff (by decide)).mp h)
    obtain ⟨line, hline, hin⟩ := ih hrest
    exact ⟨line, List.mem_cons_of_mem _ hline, hin⟩
  | case4 c rest _ _ hnil _ =>
    obtain rfl := lines_nil_iff.mp hnil
    exact ⟨[c], List.mem_singleton_self _, h⟩
  | case5 c rest _ _ first others heq ih =>
    rw [heq] at ih
    rcases List.infix_cons_iff.mp h with hpre | hrest
    · -- in front of the text, so in front of its first line
      obtain ⟨x, tail, rfl⟩ := List.exists_cons_of_ne_nil hp.ne_nil
      obtain ⟨rfl, htail⟩ := List.cons_prefix_cons.mp hpre
      have hfirst := isPrefix_first heq (fun c hc => hp.solid c (List.mem_cons_of_mem x hc)) htail
      exact ⟨x :: first, List.mem_cons_self,
        (List.cons_prefix_cons.mpr ⟨rfl, hfirst⟩).isInfix⟩
    · obtain ⟨line, hline, hin⟩ := ih hrest
      rcases List.mem_cons.mp hline with rfl | hline
      · exact ⟨c :: line, List.mem_cons_self, List.infix_cons hin⟩
      · exact ⟨line, List.mem_cons_of_mem _ hline, hin⟩

theorem mem_dropBlankEdges {ls : List (List Char)} (h : line ∈ ls) (hne : line ≠ []) :
    line ∈ dropBlankEdges ls := by
  have hstays : ∀ ls : List (List Char), line ∈ ls → line ∈ ls.dropWhile List.isEmpty := by
    intro ls h
    rw [← List.takeWhile_append_dropWhile (p := List.isEmpty) (l := ls)] at h
    rcases List.mem_append.mp h with h | h
    · exact absurd (List.isEmpty_iff.mp (List.mem_takeWhile_imp h)) hne
    · exact h
  have hfront := List.mem_reverse.mpr (hstays ls h)
  exact List.mem_reverse.mpr (hstays _ hfront)

theorem mem_of_mem_dropBlankEdges {ls : List (List Char)} (h : line ∈ dropBlankEdges ls) :
    line ∈ ls := by
  have h := List.dropWhile_subset _ (List.mem_reverse.mp h)
  exact List.dropWhile_subset _ (List.mem_reverse.mp h)

theorem byteLength_append (s t : List Char) :
    byteLength (s ++ t) = byteLength s + byteLength t := by
  induction s with
  | nil => simp [byteLength]
  | cons c s ih => rw [List.cons_append, byteLength, byteLength, ih, Nat.add_assoc]

theorem byteLength_eq_zero_iff : byteLength s = 0 ↔ s = [] := by
  cases s with
  | nil => simp [byteLength]
  | cons c s =>
    have hpos := c.utf8Size_pos
    simp only [byteLength, reduceCtorEq, iff_false]
    omega

theorem dropBytes?_eq_some {n : Nat} {rest : List Char} (h : dropBytes? s n = some rest) :
    ∃ cut, s = cut ++ rest ∧ byteLength cut = n := by
  fun_induction dropBytes? s n with
  | case1 s =>
    obtain rfl := Option.some.inj h
    exact ⟨[], rfl, rfl⟩
  | case2 => simp at h
  | case3 c s n hle ih =>
    obtain ⟨cut, hs, hn⟩ := ih h
    refine ⟨c :: cut, by rw [hs, List.cons_append], ?_⟩
    rw [byteLength, hn]
    omega
  | case4 => simp at h

theorem margin_le {ls : List (List Char)} (h : line ∈ ls) (hne : line ≠ []) :
    margin ls ≤ indentation line := by
  have hmem : indentation line ∈ (ls.filter fun line => !line.isEmpty).map indentation :=
    List.mem_map_of_mem (List.mem_filter.mpr ⟨h, by simpa using hne⟩)
  unfold margin
  cases hmin : ((ls.filter fun line => !line.isEmpty).map indentation).min? with
  | none =>
    rw [List.min?_eq_none_iff.mp hmin] at hmem
    simp at hmem
  | some least => exact (List.min?_eq_some_iff.mp hmin).2 _ hmem

/-- Cutting a margin that is all blank takes nothing but blanks from the front. -/
theorem exists_blanks_cutMargin {width : Nat} (h : line = [] ∨ width ≤ indentation line) :
    ∃ blanks, (∀ c ∈ blanks, isBlank c = true) ∧ line = blanks ++ cutMargin width line := by
  have hblanks : ∀ c ∈ line.takeWhile isBlank, isBlank c = true :=
    fun c hc => List.mem_takeWhile_imp hc
  unfold cutMargin
  cases hcut : dropBytes? line width with
  | none => exact ⟨_, hblanks, List.takeWhile_append_dropWhile.symm⟩
  | some rest =>
    obtain ⟨cut, hline, hn⟩ := dropBytes?_eq_some hcut
    refine ⟨cut, ?_, hline⟩
    rcases h with rfl | hwidth
    · obtain ⟨rfl, -⟩ := List.append_eq_nil_iff.mp hline.symm
      simp
    · -- of two texts in front of a line the shorter one is in front of the longer one
      have hpre : cut <+: line := ⟨rest, hline.symm⟩
      rcases List.prefix_or_prefix_of_prefix hpre (List.takeWhile_prefix isBlank) with hle | hle
      · exact fun c hc => hblanks c (hle.subset hc)
      · obtain ⟨more, hmore⟩ := hle
        have hlength : byteLength (line.takeWhile isBlank ++ more) = width := by rw [hmore, hn]
        rw [byteLength_append] at hlength
        unfold indentation at hwidth
        have hempty : more = [] := byteLength_eq_zero_iff.mp (by omega)
        rw [← hmore, hempty, List.append_nil]
        exact hblanks

/-- Each line of a comment is the end of a line of its text, behind blanks. -/
theorem exists_of_mem_commentLines (h : line ∈ commentLines s) :
    ∃ source ∈ lines s, ∃ blanks, (∀ c ∈ blanks, isBlank c = true) ∧
      trimEnd source = blanks ++ line := by
  obtain ⟨kept, hkept, rfl⟩ := List.mem_map.mp h
  obtain ⟨source, hsource, htrim⟩ := List.mem_map.mp (mem_of_mem_dropBlankEdges hkept)
  have hwidth := or_iff_not_imp_left.mpr fun hne : kept ≠ [] => margin_le hkept hne
  obtain ⟨blanks, hb, hline⟩ := exists_blanks_cutMargin hwidth
  exact ⟨source, hsource, blanks, hb, htrim.trans hline⟩

/-- No piece without blanks is lost, none is added. -/
theorem Solid.infix_commentLines_iff (hp : Solid p) :
    (∃ line ∈ commentLines s, p <:+: line) ↔ p <:+: s := by
  constructor
  · rintro ⟨line, hline, hin⟩
    obtain ⟨source, hsource, blanks, hb, htrim⟩ := exists_of_mem_commentLines hline
    rw [← hp.infix_append_iff hb, ← htrim, hp.infix_trimEnd_iff] at hin
    exact hin.trans (infix_of_mem_lines hsource)
  · intro h
    obtain ⟨source, hsource, hin⟩ := hp.exists_line h
    rw [← hp.infix_trimEnd_iff] at hin
    have hne : trimEnd source ≠ [] := by
      intro hnil
      rw [hnil] at hin
      exact hp.ne_nil (List.infix_nil.mp hin)
    have hkept := mem_dropBlankEdges (List.mem_map_of_mem hsource) hne
    obtain ⟨blanks, hb, hline⟩ := exists_blanks_cutMargin (.inr (margin_le hkept hne))
    refine ⟨_, List.mem_map_of_mem hkept, ?_⟩
    rw [hline, hp.infix_append_iff hb] at hin
    exact hin

end DeclForest.Text
