import DeclForest.Proofs.Enclosure

/-!
Indentation and braces of a text. The depth of a text is the number of braces that it leaves open; a
text is `Indented` if braces are closed in order and every line stands as many tabs deep as braces
are open before it. A list of source lines gives such a text if each line turns the depth it stands
at into the depth of the next one, which is a matter of that line alone.
-/

namespace DeclForest

namespace Text

def Lacks (banned : List Char) (s : String) : Prop := ∀ c ∈ s.toList, c ∉ banned

-- the instance by name: a search may also come upon the one that tries every character there is
instance (banned : List Char) (s : String) : Decidable (Lacks banned s) :=
  List.decidableBAll (· ∉ banned) s.toList

def braces : List Char := ['{', '}']

def breaks : List Char := '\n' :: braces

section Lacks

variable {banned : List Char} {a b : String}

theorem lacks_empty (banned : List Char) : Lacks banned "" := fun _ hc => by simp at hc

@[simp] theorem lacks_append_iff : Lacks banned (a ++ b) ↔ Lacks banned a ∧ Lacks banned b := by
  simp [Lacks, or_imp, forall_and]

theorem Lacks.mono {more : List Char} (h : Lacks more a) (hm : banned ⊆ more) : Lacks banned a :=
  fun c hc hb => h c hc (hm hb)

theorem Lacks.not_mem {c : Char} (h : Lacks banned a) (hc : c ∈ banned) : c ∉ a.toList :=
  fun ha => h c ha hc

theorem Lacks.braces (h : Lacks breaks a) : Lacks braces a := h.mono (List.subset_cons_self _ _)

theorem lacks_intercalate {separator : String} {parts : List String} (hs : Lacks banned separator)
    (h : ∀ part ∈ parts, Lacks banned part) : Lacks banned (separator.intercalate parts) := by
  induction parts with
  | nil => exact lacks_empty banned
  | cons part rest ih =>
    have hrest := ih fun x hx => h x (List.mem_cons_of_mem part hx)
    cases rest with
    | nil => simpa using h part List.mem_cons_self
    | cons next rest =>
      rw [String.intercalate_cons_cons, lacks_append_iff, lacks_append_iff]
      exact ⟨⟨h part List.mem_cons_self, hs⟩, hrest⟩

end Lacks

/-- The braces that a text leaves open, less those that it closes without having opened them. -/
def depth (text : List Char) : Int := text.count '{' - text.count '}'

@[simp] theorem depth_nil : depth [] = 0 := by simp [depth]

@[simp] theorem depth_append (s t : List Char) : depth (s ++ t) = depth s + depth t := by
  simp only [depth, List.count_append]
  omega

@[simp] theorem depth_break (s : List Char) : depth ('\n' :: s) = depth s := by simp [depth]

theorem depth_of_lacks {s : String} (h : Lacks braces s) : depth s.toList = 0 := by
  have hopen : '{' ∉ s.toList := h.not_mem (by decide)
  have hclose : '}' ∉ s.toList := h.not_mem (by decide)
  simp [depth, List.count_eq_zero_of_not_mem hopen, List.count_eq_zero_of_not_mem hclose]

/-- What a text closes in all bounds what is closed on the way. -/
theorem depth_of_isPrefix {before text : List Char} {n : Nat} (h : text.count '}' ≤ n)
    (hb : before <+: text) : 0 ≤ n + depth before := by
  have hle := hb.sublist.count_le '}'
  unfold depth
  omega

def leadingTabs (line : List Char) : Nat := (line.takeWhile (· = '\t')).length

def closes (line : List Char) : Bool := line.dropWhile (· = '\t') = ['}']

/-- Braces are balanced, none is closed before it was opened, and a line that is not empty starts
with one tab for each brace that is open before it, or with one less if all it does is to close one.
A line is what stands between two line feeds; these count for no depth. -/
structure Indented (text : String) : Prop where
  balanced : depth text.toList = 0
  covered : ∀ before, before <+: text.toList → 0 ≤ depth before
  tabs : ∀ before line after, text.toList.splitOn '\n' = before ++ line :: after → line ≠ [] →
    (leadingTabs line : Int) = depth before.flatten - if closes line then 1 else 0

end Text

namespace Source

open Text

def Line.chars (l : Line) : List Char :=
  if l.text.isEmpty then [] else List.replicate l.level '\t' ++ l.text.toList

def Starts (text : String) : Prop := ∃ c rest, text.toList = c :: rest ∧ c ≠ '\t'

instance (text : String) : Decidable (Starts text) :=
  decidable_of_iff (text.toList.head?.any (· ≠ '\t') = true) <| by
    unfold Starts
    cases text.toList <;> simp

/-- The text can be written as one line at any depth: it does not indent itself, and has neither
braces nor line feeds. -/
structure Inline (text : String) : Prop where
  starts : Starts text
  lacks : Lacks breaks text

instance (text : String) : Decidable (Inline text) :=
  decidable_of_iff (Starts text ∧ Lacks breaks text) ⟨fun h => ⟨h.1, h.2⟩, fun h => ⟨h.1, h.2⟩⟩

/-- A line that stands at a depth, and the depth behind it. -/
inductive Turn : Nat → Line → Nat → Prop where
  | blank (n level : Nat) : Turn n ⟨level, ""⟩ n
  | plain {n : Nat} {text : String} : Inline text → Turn n ⟨n, text⟩ n
  | head {n : Nat} {text : String} : Inline text → Turn n ⟨n, text ++ r" {"⟩ (n + 1)
  | opening (n : Nat) : Turn n ⟨n, r"{"⟩ (n + 1)
  | closing (n : Nat) : Turn (n + 1) ⟨n, r"}"⟩ n

inductive Nested : Nat → List Line → Nat → Prop where
  | nil (n : Nat) : Nested n [] n
  | cons {n m k : Nat} {l : Line} {ls : List Line} : Turn n l m → Nested m ls k →
      Nested n (l :: ls) k

section Starts

variable {a b : String}

theorem Starts.append (h : Starts a) (b : String) : Starts (a ++ b) := by
  obtain ⟨c, rest, ha, hc⟩ := h
  exact ⟨c, rest ++ b.toList, by simp [ha], hc⟩

theorem Starts.after (h : Starts b) (ha : '\t' ∉ a.toList) : Starts (a ++ b) := by
  cases hl : a.toList with
  | nil => simpa [Starts, hl] using h
  | cons c rest =>
    refine ⟨c, rest ++ b.toList, by simp [hl], ?_⟩
    rintro rfl
    simp [hl] at ha

theorem Starts.ne_empty (h : Starts a) : a ≠ "" := by
  rintro rfl
  obtain ⟨c, rest, ha, -⟩ := h
  simp at ha

theorem Inline.append (h : Inline a) (hb : Lacks breaks b) : Inline (a ++ b) :=
  ⟨h.starts.append b, lacks_append_iff.mpr ⟨h.lacks, hb⟩⟩

/-- The characters of a line: as many tabs as its level says, and its text. -/
theorem Starts.chars (h : Starts a) (level : Nat) :
    Line.chars ⟨level, a⟩ = List.replicate level '\t' ++ a.toList := by
  simp [Line.chars, h.ne_empty]

theorem Starts.leadingTabs_chars (h : Starts a) (level : Nat) :
    leadingTabs (Line.chars ⟨level, a⟩) = level := by
  rw [h.chars]
  obtain ⟨c, rest, ha, hc⟩ := h
  simp [leadingTabs, ha, List.takeWhile_append_of_pos, hc]

theorem Starts.closes_chars_iff (h : Starts a) (level : Nat) :
    closes (Line.chars ⟨level, a⟩) = true ↔ a = r"}" := by
  rw [h.chars]
  obtain ⟨c, rest, ha, hc⟩ := h
  have hdrop : (List.replicate level '\t' ++ a.toList).dropWhile (· = '\t') = a.toList := by
    rw [List.dropWhile_append_of_pos (by simp), ha]
    simp [hc]
  rw [closes, hdrop, decide_eq_true_iff, ← String.toList_inj]
  rfl

theorem Starts.count_chars (h : Starts a) (level : Nat) {c : Char} (hc : c ≠ '\t') :
    (Line.chars ⟨level, a⟩).count c = a.toList.count c := by
  rw [h.chars, List.count_append, List.count_replicate]
  simp [hc.symm]

theorem Starts.depth_chars (h : Starts a) (level : Nat) :
    depth (Line.chars ⟨level, a⟩) = depth a.toList := by
  unfold depth
  rw [h.count_chars level (by decide), h.count_chars level (by decide)]

theorem Inline.count_eq_zero (h : Inline a) {c : Char} (hc : c ∈ breaks) : a.toList.count c = 0 :=
  List.count_eq_zero_of_not_mem (h.lacks.not_mem hc)

theorem starts_opening : Starts r"{" := by decide

theorem starts_closing : Starts r"}" := by decide

end Starts

namespace Turn

variable {n m : Nat} {l : Line}

theorem not_mem_chars (h : Turn n l m) : '\n' ∉ l.chars := by
  rw [← List.count_eq_zero]
  cases h with
  | blank => rfl
  | plain hi => rw [hi.starts.count_chars n (by decide), hi.count_eq_zero (by decide)]
  | head hi =>
    rw [(hi.starts.append _).count_chars n (by decide), String.toList_append, List.count_append,
      hi.count_eq_zero (by decide)]
    rfl
  | opening => exact starts_opening.count_chars n (by decide)
  | closing => exact starts_closing.count_chars m (by decide)

theorem depth_chars (h : Turn n l m) : depth l.chars = m - n := by
  cases h with
  | blank => simp [Line.chars]
  | plain hi => simp [hi.starts.depth_chars, depth_of_lacks hi.lacks.braces]
  | head hi =>
    have hbrace : depth r" {".toList = 1 := rfl
    rw [(hi.starts.append _).depth_chars, String.toList_append, depth_append, hbrace,
      depth_of_lacks hi.lacks.braces]
    omega
  | opening =>
    have hbrace : depth r"{".toList = 1 := rfl
    rw [starts_opening.depth_chars, hbrace]
    omega
  | closing =>
    have hbrace : depth r"}".toList = -1 := rfl
    rw [starts_closing.depth_chars, hbrace]
    omega

/-- A line closes no more braces than are open in front of it. -/
theorem count_chars_le (h : Turn n l m) : l.chars.count '}' ≤ n := by
  cases h with
  | blank => exact Nat.zero_le n
  | plain hi => simp [hi.starts.count_chars, hi.count_eq_zero (c := '}') (by decide)]
  | head hi =>
    simp [(hi.starts.append _).count_chars, hi.count_eq_zero (c := '}') (by decide)]
  | opening => simp [starts_opening.count_chars]
  | closing => simp [starts_closing.count_chars]

theorem tabs (h : Turn n l m) (hne : l.chars ≠ []) :
    (leadingTabs l.chars : Int) = n - if closes l.chars then 1 else 0 := by
  -- only the line that is one closing brace stands less deep
  have hline : ∀ {text : String}, Starts text → text ≠ r"}" → (leadingTabs
      (Line.chars ⟨n, text⟩) : Int) = n - if closes (Line.chars ⟨n, text⟩) then 1 else 0 := by
    intro text hs hnot
    rw [hs.leadingTabs_chars, if_neg (mt (hs.closes_chars_iff n).mp hnot), Int.sub_zero]
  cases h with
  | blank => exact absurd rfl hne
  | plain hi =>
    refine hline hi.starts ?_
    rintro rfl
    exact absurd hi (by decide)
  | head hi =>
    refine hline (hi.starts.append _) fun he => ?_
    have hlast := congrArg (fun s => s.toList.getLast?) he
    simp at hlast
  | opening => exact hline starts_opening (by decide)
  | closing =>
    rw [starts_closing.leadingTabs_chars, if_pos ((starts_closing.closes_chars_iff m).mpr rfl)]
    omega

end Turn

theorem toList_joined_cons (l : Line) (ls : List Line) :
    (joined (l :: ls)).toList = l.chars ++ '\n' :: (joined ls).toList := by
  rw [joined_cons, String.toList_append, toList_toText, List.append_assoc]
  rfl

namespace Nested

variable {n m k : Nat} {ls rest : List Line}

theorem single {l : Line} (h : Turn n l m) : Nested n [l] m := .cons h (.nil m)

theorem append (h : Nested n ls m) (hr : Nested m rest k) : Nested n (ls ++ rest) k := by
  induction h with
  | nil n => exact hr
  | cons ht _ ih => exact .cons ht (ih hr)

theorem of_forall (h : ∀ l ∈ ls, Turn n l n) : Nested n ls n := by
  induction ls with
  | nil => exact .nil n
  | cons l ls ih =>
    exact .cons (h l List.mem_cons_self) (ih fun x hx => h x (List.mem_cons_of_mem l hx))

theorem split {before : List Line} {l : Line} (h : Nested n (before ++ l :: rest) m) :
    ∃ k k', Nested n before k ∧ Turn k l k' := by
  induction before generalizing n with
  | nil =>
    cases h with
    | cons ht _ => exact ⟨_, _, .nil n, ht⟩
  | cons first before ih =>
    cases h with
    | cons ht hrest =>
      obtain ⟨k, k', hb, hl⟩ := ih hrest
      exact ⟨k, k', .cons ht hb, hl⟩

theorem depth_flatten (h : Nested n ls m) : depth (ls.map Line.chars).flatten = m - n := by
  induction h with
  | nil n => simp
  | cons ht _ ih =>
    rw [List.map_cons, List.flatten_cons, depth_append, ht.depth_chars, ih]
    omega

theorem depth_joined (h : Nested n ls m) : depth (joined ls).toList = m - n := by
  induction h with
  | nil n => simp
  | @cons n m k l ls ht _ ih =>
    rw [toList_joined_cons, depth_append, depth_break, ht.depth_chars, ih]
    omega

theorem covered (h : Nested n ls m) {before : List Char} (hb : before <+: (joined ls).toList) :
    0 ≤ n + depth before := by
  induction h generalizing before with
  | nil n =>
    obtain rfl : before = [] := List.prefix_nil.mp hb
    simp
  | @cons n m k l ls ht _ ih =>
    rw [toList_joined_cons] at hb
    rcases List.prefix_or_prefix_of_prefix hb (List.prefix_append _ _) with hin | ⟨more, rfl⟩
    · exact depth_of_isPrefix ht.count_chars_le hin
    · have hline := ht.depth_chars
      rw [List.prefix_append_right_inj] at hb
      rcases List.prefix_cons_iff.mp hb with rfl | ⟨further, rfl, hf⟩
      · simp only [List.append_nil]
        omega
      · have hrest := ih hf
        rw [depth_append, depth_break]
        omega

theorem splitOn_joined (h : Nested n ls m) :
    (joined ls).toList.splitOn '\n' = ls.map Line.chars ++ [[]] := by
  induction h with
  | nil n => rfl
  | cons ht _ ih =>
    rw [toList_joined_cons, List.splitOn_append_cons_self_of_not_mem ht.not_mem_chars, ih]
    rfl

/-- Lines that start at depth zero and end there are an indented text. -/
theorem indented (h : Nested 0 ls 0) : Indented (joined ls) where
  balanced := by simpa using h.depth_joined
  covered before hb := by simpa using h.covered hb
  tabs before line after hsplit hne := by
    rw [h.splitOn_joined] at hsplit
    obtain ⟨more, hlines, hmore⟩ : ∃ more, ls.map Line.chars = before ++ more ∧
        line :: after = more ++ [[]] := by
      rcases List.append_eq_append_iff.mp hsplit with ⟨front, -, hfront⟩ | hmore
      · cases front <;> simp_all
      · exact hmore
    cases more with
    | nil => exact absurd (List.cons.inj hmore).1 hne
    | cons piece more =>
      obtain ⟨rfl, -⟩ := List.cons.inj hmore
      obtain ⟨front, back, rfl, rfl, hback⟩ := List.map_eq_append_iff.mp hlines
      obtain ⟨l, others, rfl, rfl, -⟩ := List.map_eq_cons_iff.mp hback
      obtain ⟨k, k', hbefore, hl⟩ := h.split
      have hdepth := hbefore.depth_flatten
      rw [hl.tabs hne, hdepth]
      simp

end Nested

end Source

end DeclForest
