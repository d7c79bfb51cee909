import DeclForest.Proofs.YamlLines

/-!
Scalars of one line in YAML. A text of printable ASCII characters is written plain or between single
quotes, and either way it is read as the text again: a plain one word by word, a quoted one with its
runs of spaces as gaps.
-/

namespace DeclForest.Yaml

variable {c x : Char} {s w text rest : List Char}

theorem fold_spaces (n : Nat) : (Gap.mk (spaces n) []).fold = spaces n := rfl

/-- A word of a plain scalar: it starts no comment, and no colon of it marks a key. -/
structure IsWord (w : List Char) : Prop where
  ne_nil : w ≠ []
  ascii : ∀ c ∈ w, isAscii c = true
  space : ' ' ∉ w
  hash : w.head? ≠ some '#'
  mark : Style.hasKeyMark w = false

inductive Words : List Char → Prop where
  | last {w : List Char} : IsWord w → Words w
  | cons {w s : List Char} (n : Nat) : IsWord w → Words s → Words (w ++ spaces (n + 1) ++ s)

namespace Style

theorem hasKeyMark_append (h : gapAt rest = true) :
    hasKeyMark (s ++ rest) = (hasKeyMark s || hasKeyMark rest) := by
  induction s with
  | nil => simp [hasKeyMark]
  | cons c s ih =>
    have hgap : gapAt (s ++ rest) = gapAt s := by
      cases s with
      | nil => exact h
      | cons d s => rfl
    rw [List.cons_append, hasKeyMark, hasKeyMark, ih, hgap, Bool.or_assoc]

theorem hasKeyMark_of_append (h : hasKeyMark (s ++ rest) = false) : hasKeyMark rest = false := by
  induction s with
  | nil => exact h
  | cons c s ih => exact ih (Bool.or_eq_false_iff.mp h).2

theorem hasPair_of_append {p q : Char → Bool} (h : hasPair p q (s ++ rest) = false) :
    hasPair p q rest = false := by
  induction s with
  | nil => exact h
  | cons c s ih =>
    apply ih
    rw [List.cons_append] at h
    cases hs : s ++ rest with
    | nil => rfl
    | cons d more =>
      rw [hs, hasPair] at h
      exact (Bool.or_eq_false_iff.mp h).2

theorem hasPair_eq_false {p q : Char → Bool}
    (h : (∀ c ∈ s, p c = false) ∨ ∀ c ∈ s, q c = false) : hasPair p q s = false := by
  induction s with
  | nil => rfl
  | cons c s ih =>
    cases s with
    | nil => rfl
    | cons d s =>
      simp only [List.forall_mem_cons] at h
      have hpair : (p c && q d) = false := by
        rcases h with h | h
        · rw [h.1, Bool.false_and]
        · rw [h.2.1, Bool.and_false]
      rw [hasPair, hpair, Bool.false_or]
      exact ih (h.imp (fun h => List.forall_mem_cons.mpr h.2) fun h => List.forall_mem_cons.mpr h.2)

end Style

theorem Words.exists_cons (h : Words s) : ∃ x more, s = x :: more ∧ isGap x = false := by
  have hword {w : List Char} (hw : IsWord w) : ∃ x more, w = x :: more ∧ isGap x = false := by
    obtain ⟨x, w, rfl⟩ := List.exists_cons_of_ne_nil hw.ne_nil
    have hx : x ≠ ' ' := fun hx => hw.space (hx ▸ List.mem_cons_self)
    exact ⟨x, w, rfl, by rw [isGap_of_isAscii (hw.ascii x List.mem_cons_self), decide_eq_false hx]⟩
  cases h with
  | last hw => exact hword hw
  | cons n hw _ =>
    obtain ⟨x, more, rfl, hx⟩ := hword hw
    exact ⟨x, _, rfl, hx⟩

theorem exists_spaces (s : List Char) :
    ∃ n rest, s = spaces n ++ rest ∧ rest.head? ≠ some ' ' := by
  induction s with
  | nil => exact ⟨0, [], rfl, by simp⟩
  | cons c s ih =>
    by_cases hc : c = ' '
    · obtain ⟨n, rest, rfl, hrest⟩ := ih
      exact ⟨n + 1, rest, by rw [hc]; rfl, hrest⟩
    · exact ⟨0, c :: s, rfl, by simpa using hc⟩

theorem exists_unspaced (s : List Char) :
    ∃ w rest, s = w ++ rest ∧ ' ' ∉ w ∧ (rest = [] ∨ ∃ more, rest = ' ' :: more) := by
  induction s with
  | nil => exact ⟨[], [], rfl, by simp, .inl rfl⟩
  | cons c s ih =>
    by_cases hc : c = ' '
    · exact ⟨[], c :: s, rfl, by simp, .inr ⟨s, by rw [hc]⟩⟩
    · obtain ⟨w, rest, rfl, hw, hrest⟩ := ih
      exact ⟨c :: w, rest, rfl, by simp [hw, Ne.symm hc], hrest⟩

structure Unmarked (s : List Char) : Prop where
  ne_nil : s ≠ []
  ascii : ∀ c ∈ s, isAscii c = true
  space : s.head? ≠ some ' '
  number : s.head? ≠ some '#'
  last : s.getLast? ≠ some ' '
  mark : Style.hasKeyMark s = false
  hash : Style.hasPair isGap (· = '#') s = false

namespace Unmarked

theorem first (h : Unmarked (w ++ rest)) (hne : w ≠ []) (hspace : ' ' ∉ w)
    (hrest : gapAt rest = true) : IsWord w := by
  refine ⟨hne, fun c hc => h.ascii c (List.mem_append_left rest hc), hspace, ?_, ?_⟩
  · obtain ⟨x, w, rfl⟩ := List.exists_cons_of_ne_nil hne
    exact h.number
  · have hmark := h.mark
    rw [Style.hasKeyMark_append hrest] at hmark
    exact (Bool.or_eq_false_iff.mp hmark).1

/-- What is behind a run of spaces has no mark either. -/
theorem further (h : Unmarked (w ++ ' ' :: s)) (hspace : s.head? ≠ some ' ') : Unmarked s := by
  have hlast := h.last
  cases s with
  | nil => simp at hlast
  | cons x s =>
    have hhash : Style.hasPair isGap (· = '#') (' ' :: x :: s) = false :=
      Style.hasPair_of_append h.hash
    obtain ⟨hfirst, hhash⟩ := Bool.or_eq_false_iff.mp hhash
    have hmark : Style.hasKeyMark ([' '] ++ x :: s) = false := Style.hasKeyMark_of_append h.mark
    refine ⟨List.cons_ne_nil x s, fun c hc => ?_, hspace, ?_, ?_,
      Style.hasKeyMark_of_append hmark, hhash⟩
    · exact h.ascii c (List.mem_append_right w (List.mem_cons_of_mem ' ' hc))
    · simpa [isGap, isBlank] using hfirst
    · simpa [List.getLast?_append, List.getLast?_cons] using hlast

theorem words (h : Unmarked s) : Words s := by
  induction hlength : s.length using Nat.strongRecOn generalizing s with
  | ind length ih =>
    obtain ⟨w, rest, rfl, hw, hrest⟩ := exists_unspaced s
    have hne : w ≠ [] := by
      rintro rfl
      rcases hrest with rfl | ⟨more, rfl⟩
      · exact h.ne_nil rfl
      · exact h.space rfl
    rcases hrest with rfl | ⟨more, rfl⟩
    · rw [List.append_nil]
      exact .last (h.first hne hw rfl)
    · obtain ⟨n, others, rfl, hothers⟩ := exists_spaces more
      have hend : ' ' :: spaces n = spaces n ++ [' '] := List.replicate_succ'
      have hsplit : w ++ ' ' :: (spaces n ++ others) = (w ++ spaces n) ++ ' ' :: others := by
        rw [← List.cons_append, hend]
        simp
      have hshape : w ++ ' ' :: (spaces n ++ others) = w ++ spaces (n + 1) ++ others := by
        simp [spaces, List.replicate_succ]
      have hfurther := (hsplit ▸ h).further hothers
      rw [hshape]
      refine .cons n (h.first hne hw rfl) (ih others.length ?_ hfurther rfl)
      simp at hlength
      omega

end Unmarked

namespace Plain

theorem chunk_append (hascii : ∀ c ∈ w, isAscii c = true) (hspace : ' ' ∉ w)
    (hmark : Style.hasKeyMark w = false) (hrest : gapAt rest = true) :
    chunk false (w ++ rest) = some w := by
  induction w with
  | nil =>
    cases rest with
    | nil => rfl
    | cons c rest =>
      have hc : isGap c = true := hrest
      simp [chunk, hc]
  | cons c w ih =>
    obtain ⟨hc, hascii⟩ := List.forall_mem_cons.mp hascii
    obtain ⟨hne, hspace⟩ := not_or.mp (mt List.mem_cons.mpr hspace)
    obtain ⟨hcolon, hmark⟩ := Bool.or_eq_false_iff.mp hmark
    have hgap : gapAt (w ++ rest) = gapAt w := by
      cases w with
      | nil => exact hrest
      | cons d w => rfl
    have hc : isGap c = false := by rw [isGap_of_isAscii hc, decide_eq_false (Ne.symm hne)]
    rw [List.cons_append, chunk, hgap, ih hascii hspace hmark]
    simp [hc, hcolon]

section Words

variable {indent n : Nat} {gap next : Gap} {c after : Cursor}

/-- One word and the gap behind it. -/
theorem readFrom_word (hw : IsWord w) (hrest : c.rest = w ++ x :: rest) (hx : isGap x = true)
    (hcolumn : 0 < c.column) (hgap : Gap.read (c.skip w.length) = (next, after))
    (htab : next.hasTabWithin indent = false) (read : List Char) :
    readFrom false indent (n + 1) gap c read =
      if after.column < indent then some ⟨read ++ gap.fold ++ w, after, next.spansLines⟩
      else readFrom false indent n next after (read ++ gap.fold ++ w) := by
  have hhash : c.rest.head? ≠ some '#' := by
    obtain ⟨y, w, rfl⟩ := List.exists_cons_of_ne_nil hw.ne_nil
    rw [hrest]
    exact hw.hash
  have hchunk : chunk false c.rest = some w := by
    rw [hrest]
    exact chunk_append hw.ascii hw.space hw.mark hx
  have hend : (c.skip w.length).rest.head?.any isGap = true := by simp [hrest, hx]
  have hempty : w.isEmpty = false := by simpa using hw.ne_nil
  rw [readFrom, Cursor.atAnyMarker_of_column hcolumn, decide_eq_false hhash, hchunk]
  simp only [Bool.or_self, Bool.false_eq_true, if_false, Option.bind_eq_bind, Option.bind_some,
    hempty, hend, Bool.not_true, hgap, htab, Bool.not_false, Bool.true_and, decide_eq_true_eq]
  rfl

/-- Words are read up to the end of their line, where the next line is indented less. -/
theorem readFrom_words (hs : Words s) (h : IsLine text)
    (hrest : c.rest = s ++ '\n' :: text) (hcolumn : indentOf text < indent)
    (hindent : indent ≤ c.column) (hn : s.length < n) (read : List Char) :
    readFrom false indent n gap c read =
      some ⟨read ++ gap.fold ++ s, (c.skip s.length).toLine, true⟩ := by
  induction hs generalizing n gap c read with
  | @last w hw =>
    obtain ⟨n, rfl⟩ := Nat.exists_eq_add_one_of_ne_zero (Nat.ne_zero_of_lt hn)
    have hend : (c.skip w.length).rest = '\n' :: text := by simp [hrest]
    rw [readFrom_word hw hrest rfl (by omega) (Gap.read_nextLine h hend)
      (by simp [Gap.hasTabWithin, spaces]), Cursor.toLine_column hend, if_pos hcolumn]
    rfl
  | @cons w s m hw hs ih =>
    obtain ⟨n, rfl⟩ := Nat.exists_eq_add_one_of_ne_zero (Nat.ne_zero_of_lt hn)
    obtain ⟨y, more, rfl, hy⟩ := hs.exists_cons
    have hskip : (c.skip w.length).rest = spaces (m + 1) ++ y :: (more ++ '\n' :: text) := by
      simp [hrest]
    have hgap := Gap.read_spaces hskip hy
    have hspaces : c.rest = w ++ ' ' :: (spaces m ++ (y :: more ++ '\n' :: text)) := by
      simp [hrest, spaces, List.replicate_succ]
    rw [readFrom_word hw hspaces rfl (by omega) hgap rfl, if_neg (by simp; omega), ih]
    · rw [fold_spaces]
      simp [spaces, Nat.add_assoc]
    · simp [hrest, spaces]
    · simp
      omega
    · simp [spaces] at hn ⊢
      omega

end Words

/-- What follows in the text for a plain scalar is the words of the scalar. -/
theorem read_words {indent : Nat} {c : Cursor} (hs : Words s) (h : IsLine text)
    (hrest : c.rest = s ++ '\n' :: text) (hcolumn : indentOf text < indent)
    (hindent : indent ≤ c.column) :
    Plain.read false indent c = some ⟨s, (c.skip s.length).toLine, true⟩ := by
  have hlength : s.length < c.rest.length + 1 := by
    rw [hrest, List.length_append]
    omega
  rw [Plain.read, readFrom_words hs h hrest hcolumn hindent hlength]
  rfl

end Plain

namespace Quoted

def doubled (s : List Char) : List Char := s.flatMap fun c => if c = '\'' then ['\'', '\''] else [c]

theorem singleQuotedText_eq (h : ∀ c ∈ s, isBreak c = false) (indent : Nat) :
    singleQuotedText indent false s = doubled s := by
  induction s with
  | nil => rfl
  | cons c s ih =>
    obtain ⟨hc, hs⟩ := List.forall_mem_cons.mp h
    rw [singleQuotedText, hc, ih hs]
    rfl

theorem doubled_cons (c : Char) (s : List Char) :
    doubled (c :: s) = (if c = '\'' then ['\'', '\''] else [c]) ++ doubled s := rfl

theorem doubled_spaces_append (n : Nat) (s : List Char) :
    doubled (spaces n ++ s) = spaces n ++ doubled s := by
  induction n with
  | zero => rfl
  | succ n ih => exact congrArg (' ' :: ·) ih

theorem length_le_doubled (s : List Char) : s.length ≤ (doubled s).length := by
  induction s with
  | nil => simp
  | cons c s ih =>
    rw [doubled_cons]
    split <;> simp <;> omega

theorem doubled_start (hascii : ∀ x ∈ s, isAscii x = true) (hspace : s.head? ≠ some ' ')
    (rest : List Char) : ∃ x more, doubled s ++ '\'' :: rest = x :: more ∧ isGap x = false := by
  cases s with
  | nil => exact ⟨'\'', rest, rfl, rfl⟩
  | cons x s =>
    have hx : isGap x = false := by
      rw [isGap_of_isAscii (hascii x List.mem_cons_self)]
      simpa using hspace
    rw [doubled_cons]
    by_cases hquote : x = '\''
    · exact ⟨'\'', _, by rw [if_pos hquote]; rfl, rfl⟩
    · exact ⟨x, _, by rw [if_neg hquote]; rfl, hx⟩

section Steps

variable {n : Nat} {c : Cursor}

/-- A run of spaces is a gap that folds to itself. -/
theorem readFrom_spaces {m : Nat} (hrest : c.rest = spaces (m + 1) ++ x :: rest)
    (hx : isGap x = false) (read : List Char) : readFrom '\'' (n + 1) c read =
      readFrom '\'' n (c.skip (m + 1)) (spaces (m + 1) ++ read) := by
  have hstart : c.rest = ' ' :: (spaces m ++ x :: rest) := hrest
  have hcolumn : 0 < (c.skip (m + 1)).column := by
    rw [Cursor.skip_column]
    omega
  have hfold : (spaces (m + 1)).reverse = spaces (m + 1) := List.reverse_replicate
  rw [readFrom, hstart]
  simp only [isGap, isBlank, decide_true, Bool.true_or, if_true, Gap.read_spaces hrest hx,
    Cursor.atAnyMarker_of_column hcolumn, Bool.false_eq_true, if_false, fold_spaces, hfold]

theorem readFrom_twoQuotes (hrest : c.rest = '\'' :: '\'' :: rest) (read : List Char) :
    readFrom '\'' (n + 1) c read = readFrom '\'' n (c.skip 2) ('\'' :: read) := by
  rw [readFrom, hrest]
  simp [isGap, isBlank, isBreak]

theorem readFrom_char (hrest : c.rest = x :: rest) (hx : isGap x = false) (hquote : x ≠ '\'')
    (read : List Char) :
    readFrom '\'' (n + 1) c read = readFrom '\'' n (c.skip 1) (x :: read) := by
  rw [readFrom, hrest]
  simp [hx, hquote]

theorem readFrom_end (hrest : c.rest = '\'' :: '\n' :: rest) (read : List Char) :
    readFrom '\'' (n + 1) c read = some (read.reverse, c.skip 1) := by
  rw [readFrom, hrest]
  simp [isGap, isBlank, isBreak]

/-- A doubled text is read up to the quote behind it. -/
theorem readFrom_doubled (hascii : ∀ x ∈ s, isAscii x = true)
    (hrest : c.rest = doubled s ++ '\'' :: '\n' :: text) (hn : s.length < n) (read : List Char) :
    readFrom '\'' n c read = some (read.reverse ++ s, c.skip ((doubled s).length + 1)) := by
  induction hlength : s.length using Nat.strongRecOn generalizing s n c read with
  | ind length ih =>
    obtain ⟨n, rfl⟩ := Nat.exists_eq_add_one_of_ne_zero (Nat.ne_zero_of_lt hn)
    cases s with
    | nil =>
      rw [readFrom_end hrest, List.append_nil]
      rfl
    | cons x s =>
      rw [List.length_cons] at hn hlength
      by_cases hspace : x = ' '
      · -- the whole run of spaces is one step
        obtain ⟨m, others, rfl, hothers⟩ := exists_spaces s
        have hshape : x :: (spaces m ++ others) = spaces (m + 1) ++ others := by
          rw [hspace]
          rfl
        rw [hshape] at hascii hrest ⊢
        have hascii : ∀ y ∈ others, isAscii y = true := fun y hy =>
          hascii y (List.mem_append_right _ hy)
        obtain ⟨y, more, hmore, hy⟩ := doubled_start hascii hothers ('\n' :: text)
        rw [doubled_spaces_append, List.append_assoc] at hrest
        rw [List.length_append] at hn hlength
        rw [readFrom_spaces (hrest.trans (congrArg _ hmore)) hy,
          ih others.length (by omega) hascii (by simp [hrest, spaces]) (by omega) _ rfl,
          doubled_spaces_append]
        simp [spaces, Nat.add_assoc, Nat.add_comm 1]
      · obtain ⟨hx, htail⟩ := List.forall_mem_cons.mp hascii
        have hgap : isGap x = false := by rw [isGap_of_isAscii hx, decide_eq_false hspace]
        by_cases hquote : x = '\''
        · subst hquote
          have hstart : c.rest = '\'' :: '\'' :: (doubled s ++ '\'' :: '\n' :: text) := hrest
          rw [readFrom_twoQuotes hstart,
            ih s.length (by omega) htail (by simp [hstart]) (by omega) _ rfl, doubled_cons]
          have hskip : 2 + ((doubled s).length + 1) = 2 + (doubled s).length + 1 := by omega
          simp [hskip, Nat.add_comm 2]
        · have hstart : c.rest = x :: (doubled s ++ '\'' :: '\n' :: text) := by
            rw [hrest, doubled_cons, if_neg hquote]
            rfl
          rw [readFrom_char hstart hgap hquote,
            ih s.length (by omega) htail (by simp [hstart]) (by omega) _ rfl, doubled_cons,
            if_neg hquote]
          simp [Nat.add_comm]

end Steps

/-- What follows in the text for a quoted scalar is the text of the scalar. -/
theorem read_doubled {c : Cursor} (hascii : ∀ x ∈ s, isAscii x = true)
    (hrest : c.rest = '\'' :: (doubled s ++ '\'' :: '\n' :: text)) :
    Quoted.read '\'' c = some (s, c.skip ((doubled s).length + 2)) := by
  have hle := length_le_doubled s
  have hafter : (c.skip 1).rest = doubled s ++ '\'' :: '\n' :: text := by simp [hrest]
  have hlength : s.length < c.rest.length := by
    rw [hrest]
    simp
    omega
  rw [Quoted.read, readFrom_doubled hascii hafter hlength]
  simp [Nat.add_comm, ← Nat.add_assoc]

end Quoted

structure StartsPlain (x : Char) (more : List Char) : Prop where
  indicator : x ∉ indicators.toList
  gap : isGap x = false
  spaced : x = '-' ∨ x = '?' ∨ x = ':' → gapAt more = false

theorem StartsPlain.startsAt {more : List Char} (h : StartsPlain x more) :
    Plain.startsAt false (x :: more) = true := by
  by_cases hdash : x = '-'
  · subst hdash
    have hgap := h.spaced (.inl rfl)
    cases more with
    | nil => simp [gapAt] at hgap
    | cons y more =>
      have hblank : isBlank y = false := (Bool.or_eq_false_iff.mp hgap).1
      simp [Plain.startsAt, hblank]
  · by_cases hmark : x = '?' ∨ x = ':'
    · have hgap := h.spaced (.inr hmark)
      rcases hmark with rfl | rfl <;> simp [Plain.startsAt, hgap]
    · obtain ⟨hquestion, hcolon⟩ := not_or.mp hmark
      have hgap : gapAt (x :: more) = false := h.gap
      have hindicator : startsIn indicators (x :: more) = false := by
        simpa [startsIn] using h.indicator
      unfold Plain.startsAt
      split <;> simp_all

structure IsKey (key : List Char) : Prop where
  ne_nil : key ≠ []
  chars : ∀ x ∈ key, isKeyChar x = true
  length_le : key.length ≤ 1024

theorem startsPlain_of_isKeyChar (h : isKeyChar x = true) (more : List Char) :
    StartsPlain x more := by
  have hne : ∀ y, isKeyChar y = false → x ≠ y := fun y => ne_of_isKeyChar h
  have hindicators : (indicators.toList.all fun y => !isKeyChar y) = true := by decide
  refine ⟨fun hx => by simpa [h] using List.all_eq_true.mp hindicators x hx, ?_, ?_⟩
  · rw [isGap_of_isAscii (isAscii_of_isKeyChar h), decide_eq_false (hne ' ' rfl)]
  · rintro (rfl | rfl | rfl) <;> exact absurd h (by decide)

namespace Plain

theorem chunk_key (hs : ∀ x ∈ s, isKeyChar x = true) (hrest : gapAt rest = true) :
    chunk false (s ++ ':' :: rest) = some s := by
  induction s with
  | nil => simp [chunk, isGap, isBlank, isBreak, hrest]
  | cons x s ih =>
    obtain ⟨hx, hs⟩ := List.forall_mem_cons.mp hs
    have hgap : isGap x = false := (startsPlain_of_isKeyChar hx s).gap
    have hcolon : x ≠ ':' := ne_of_isKeyChar hx rfl
    rw [List.cons_append, chunk, ih hs]
    simp [hgap, hcolon]

/-- A key is read up to its colon. -/
theorem read_key {indent : Nat} {c : Cursor} (hs : IsKey s) (hrest : c.rest = s ++ ':' :: rest)
    (hgap : gapAt rest = true) :
    Plain.read false indent c = some ⟨s, c.skip s.length, false⟩ := by
  obtain ⟨x, more, rfl⟩ := List.exists_cons_of_ne_nil hs.ne_nil
  have hx := hs.chars x List.mem_cons_self
  have hmarker : c.atAnyMarker = false := Cursor.atAnyMarker_eq_false hrest (.inr (.inl hx))
  have hhash : c.rest.head? ≠ some '#' := by
    rw [hrest]
    exact fun h => ne_of_isKeyChar hx rfl (Option.some.inj h)
  have hchunk : chunk false c.rest = some (x :: more) := by
    rw [hrest]
    exact chunk_key hs.chars hgap
  have hend : (c.skip (x :: more).length).rest.head?.any isGap = false := by
    simp [hrest, isGap, isBlank, isBreak]
  rw [Plain.read, readFrom, hmarker, decide_eq_false hhash, hchunk]
  simp only [Bool.or_self, Bool.false_eq_true, if_false, Option.bind_eq_bind, Option.bind_some,
    List.isEmpty_cons, hend, Bool.not_false, if_true]
  rfl

end Plain

structure IsPlain (s : List Char) : Prop where
  words : Words s
  start : ∃ x more, s = x :: more ∧ StartsPlain x more

namespace Style

theorem needsEscapes_eq_false (hascii : ∀ c ∈ s, isAscii c = true) : needsEscapes s = false := by
  have hall : s.all isPrintable = true :=
    List.all_eq_true.mpr fun c hc => isPrintable_of_isAscii (hascii c hc)
  rw [needsEscapes, hall, hasPair_eq_false (.inr fun c hc => isBreak_of_isAscii (hascii c hc))]
  rfl

/-- No printable text needs double quotes or a block. -/
theorem of_eq (hascii : ∀ c ∈ s, isAscii c = true) : Style.of s =
    if Resolve.isOther s || !allowsPlain s then singleQuoted else plain := by
  have hfeed : '\n' ∉ s := fun h => absurd (hascii _ h) (by decide)
  have hpair : hasPair isBreak isSpace s = false :=
    hasPair_eq_false (.inl fun c hc => isBreak_of_isAscii (hascii c hc))
  have hsingle : allowsSingleQuoted s = true := by
    rw [allowsSingleQuoted, needsEscapes_eq_false hascii, hpair]
    rfl
  rw [Style.of, if_neg hfeed, quoted, if_pos hsingle]

theorem isPlain_of (hascii : ∀ c ∈ s, isAscii c = true) (h : Style.of s = plain) : IsPlain s := by
  rw [of_eq hascii] at h
  split at h
  · simp at h
  · rename_i hplain
    rw [Bool.or_eq_true, not_or, Bool.not_eq_true, Bool.not_eq_true, Bool.not_eq_false'] at hplain
    obtain ⟨hother, hallows⟩ := hplain
    obtain ⟨x, more, rfl⟩ : ∃ x more, s = x :: more := by
      cases s with
      | nil => simp [Resolve.isOther] at hother
      | cons x more => exact ⟨x, more, rfl⟩
    simp only [allowsPlain, hasIndicator, atEitherEnd, Bool.and_eq_true, Bool.not_eq_true',
      Bool.or_eq_false_iff] at hallows
    obtain ⟨⟨⟨-, ⟨⟨⟨⟨-, hstart⟩, hgap⟩, hmark⟩, hhash⟩⟩, -⟩, hfirst, hlast⟩ := hallows
    have hindicator : x ∉ indicators.toList := by simpa [startsIn] using hstart
    have hspace : x ≠ ' ' := by simpa [isSpace] using hfirst
    have hnumber : x ≠ '#' := by
      rintro rfl
      exact hindicator (by decide)
    have hend : (x :: more).getLast? ≠ some ' ' := fun hend => by simp [hend, isSpace] at hlast
    have hunmarked : Unmarked (x :: more) := ⟨List.cons_ne_nil x more, hascii,
      by simpa using hspace, by simpa using hnumber, hend, hmark, hhash⟩
    refine ⟨hunmarked.words, x, more, rfl, hindicator, ?_, ?_⟩
    · rw [isGap_of_isAscii (hascii x List.mem_cons_self), decide_eq_false hspace]
    · rintro (rfl | rfl | rfl)
      · simpa [startsIn] using hgap
      · simpa [startsIn] using hgap
      · simpa using (Bool.or_eq_false_iff.mp hmark).1

end Style

/-- How a printable text is written. -/
theorem scalarLine_eq (hascii : ∀ c ∈ s, isAscii c = true) (indent : Nat) : scalarLine indent s =
    (if Style.of s = .plain then s else '\'' :: Quoted.doubled s ++ ['\'']) ++ ['\n'] := by
  have hquoted := Quoted.singleQuotedText_eq (fun c hc => isBreak_of_isAscii (hascii c hc)) indent
  have hof := Style.of_eq hascii
  split at hof <;> rw [scalarLine, hof]
  · simp [hquoted]
  · rfl

end DeclForest.Yaml
