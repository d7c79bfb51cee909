import DeclForest.Modifiers
import Mathlib.Data.List.Basic
import Mathlib.Data.List.TakeWhile

/-!
The text form of a set of modifiers is read back as the set. Each part that is written has neither
blanks nor bars, so that the parts of the text are the parts that were written, with a blank at one
end or at both. Each part reads as its flag or as the bits without a flag, and these make up the
set.
-/

namespace DeclForest

namespace Text

variable {blanks : List Char}

theorem exists_digitChar_of_mem {c : Char} {n : Nat} (h : c ∈ Nat.toDigits 16 n) :
    ∃ d < 16, c = Nat.digitChar d := by
  induction n using Nat.strong_induction_on with
  | _ n ih =>
    rw [Nat.toDigits_eq_if (by decide)] at h
    split at h
    · exact ⟨n, ‹_›, List.mem_singleton.mp h⟩
    · rcases List.mem_append.mp h with h | h
      · exact ih (n / 16) (by omega) h
      · exact ⟨n % 16, by omega, List.mem_singleton.mp h⟩

theorem trim_eq_nil_iff {s : List Char} : trim s = [] ↔ ∀ c ∈ s, isBlank c = true := by
  have htrim : trim s = [] ↔ ∀ c ∈ s.dropWhile isBlank, isBlank c = true := by
    simp [trim, trimEnd, trimStart, List.dropWhile_eq_nil_iff]
  rw [htrim]
  constructor
  · intro h c hc
    rw [← List.takeWhile_append_dropWhile (p := isBlank) (l := s)] at hc
    rcases List.mem_append.mp hc with hc | hc
    · exact List.mem_takeWhile_imp hc
    · exact h c hc
  · exact fun h c hc => h c (List.dropWhile_subset _ hc)

theorem trim_blanks_append (hb : ∀ c ∈ blanks, isBlank c = true) (s : List Char) :
    trim (blanks ++ s) = trim s := by
  rw [trim, trimStart, List.dropWhile_append_of_pos hb]
  rfl

theorem trimEnd_append_blanks (hb : ∀ c ∈ blanks, isBlank c = true) (s : List Char) :
    trimEnd (s ++ blanks) = trimEnd s := by
  have hreverse : ∀ c ∈ blanks.reverse, isBlank c = true :=
    fun c hc => hb c (List.mem_reverse.mp hc)
  rw [trimEnd, List.reverse_append, List.dropWhile_append_of_pos hreverse]
  rfl

theorem trim_append_of_blanks (hb : ∀ c ∈ blanks, isBlank c = true) (s : List Char) :
    trim (s ++ blanks) = trim s := by
  by_cases hs : trimStart s = []
  · -- nothing is left of the first text, so nothing of both
    have hall : ∀ c ∈ s, isBlank c = true := List.dropWhile_eq_nil_iff.mp hs
    rw [trim_blanks_append hall, trim_eq_nil_iff.mpr hall, trim_eq_nil_iff.mpr hb]
  · have hstart : trimStart (s ++ blanks) = trimStart s ++ blanks := by
      have hne : (s.dropWhile isBlank).isEmpty = false := List.isEmpty_eq_false_iff.mpr hs
      rw [trimStart, List.dropWhile_append, hne]
      rfl
    rw [trim, hstart, trimEnd_append_blanks hb]
    rfl

/-- Blanks behind a text that has none are cut off, and nothing else. -/
theorem trim_append_blanks {s : List Char} (hs : ∀ c ∈ s, isBlank c = false)
    (hb : ∀ c ∈ blanks, isBlank c = true) : trim (s ++ blanks) = s := by
  rw [trim_append_of_blanks hb]
  cases s with
  | nil => rfl
  | cons c rest =>
    have hstart : trimStart (c :: rest) = c :: rest := by simp [trimStart, hs c List.mem_cons_self]
    have hend : (c :: rest).reverse.dropWhile isBlank = (c :: rest).reverse :=
      List.dropWhile_eq_self_iff.mpr fun hl => by
        simpa using hs _ (List.mem_reverse.mp (List.getElem_mem hl))
    rw [trim, hstart, trimEnd, hend, List.reverse_reverse]

end Text

namespace Modifiers

open Text

theorem hexValue?_append (digits : List Char) (c : Char) :
    hexValue? (digits ++ [c]) =
      (hexValue? digits).bind fun n => (hexDigit? c).map (16 * n + ·) := by
  simp [hexValue?, List.foldlM_append]

theorem hexValue?_toDigits (n : Nat) : hexValue? (Nat.toDigits 16 n) = some n := by
  induction n using Nat.strong_induction_on with
  | _ n ih =>
    rw [Nat.toDigits_eq_if (by decide)]
    split
    · simp [hexValue?, hexDigit?_digitChar ‹_›]
    · rw [hexValue?_append, ih (n / 16) (by omega)]
      have hlast := hexDigit?_digitChar (Nat.mod_lt n (show 16 > 0 by decide))
      simp only [Option.bind_some, hlast, Option.map_some, Option.some.injEq]
      omega

def IsPart (s : List Char) : Prop := s ≠ [] ∧ ∀ c ∈ s, c ≠ '|' ∧ isBlank c = false

theorem isPart_label (flag : Flag) : IsPart flag.label.toList := by
  have hlabel : flag.label.toList ≠ [] ∧
      (flag.label.toList.all fun c => c ≠ '|' && !isBlank c) = true := by
    cases flag <;> decide
  refine ⟨hlabel.1, fun c hc => ?_⟩
  simpa using List.all_eq_true.mp hlabel.2 c hc

theorem isPart_number (n : Nat) : IsPart ('0' :: 'x' :: Nat.toDigits 16 n) := by
  have hdigit : ∀ d : Fin 16, Nat.digitChar d ≠ '|' ∧ isBlank (Nat.digitChar d) = false := by
    decide
  refine ⟨by simp, fun c hc => ?_⟩
  rcases List.mem_cons.mp hc with rfl | hc
  · decide
  rcases List.mem_cons.mp hc with rfl | hc
  · decide
  obtain ⟨d, hd, rfl⟩ := exists_digitChar_of_mem hc
  exact hdigit ⟨d, hd⟩

theorem IsPart.trim_append {s b : List Char} (h : IsPart s)
    (hb : ∀ c ∈ b, isBlank c = true) : trim (s ++ b) = s :=
  trim_append_blanks (fun c hc => (h.2 c hc).2) hb

theorem pieces_ne_nil (s : List Char) : pieces s ≠ [] := by
  cases s with
  | nil => simp [pieces]
  | cons c rest =>
    unfold pieces
    split
    · simp
    · split <;> simp

theorem pieces_cons {c : Char} (hc : c ≠ '|') {s piece : List Char} {others : List (List Char)}
    (h : pieces s = piece :: others) : pieces (c :: s) = (c :: piece) :: others := by
  rw [pieces, if_neg hc, h]

theorem pieces_eq_self {s : List Char} (h : ∀ c ∈ s, c ≠ '|') : pieces s = [s] := by
  induction s with
  | nil => rfl
  | cons c rest ih =>
    exact pieces_cons (h c List.mem_cons_self) (ih fun x hx => h x (List.mem_cons_of_mem c hx))

theorem pieces_append_bar (a b : List Char) : pieces (a ++ '|' :: b) = pieces a ++ pieces b := by
  induction a with
  | nil => simp [pieces]
  | cons c rest ih =>
    by_cases hc : c = '|'
    · simp [pieces, hc, ih]
    · obtain ⟨piece, others, hp⟩ := List.exists_cons_of_ne_nil (pieces_ne_nil rest)
      rw [hp] at ih
      rw [List.cons_append, pieces_cons hc ih, pieces_cons hc hp]
      rfl

theorem map_trim_pieces_blank {c : Char} (hc : isBlank c = true) (s : List Char) :
    (pieces (c :: s)).map trim = (pieces s).map trim := by
  have hbar : c ≠ '|' := by
    rintro rfl
    exact absurd hc (by decide)
  obtain ⟨piece, others, hp⟩ := List.exists_cons_of_ne_nil (pieces_ne_nil s)
  rw [pieces_cons hbar hp, hp, List.map_cons, List.map_cons]
  exact congrArg (· :: _) (trim_blanks_append (List.forall_mem_singleton.mpr hc) piece)

/-- By induction on the parts; a bar stands between two blanks, which trimming takes away. -/
theorem map_trim_pieces_intercalate {parts : List (List Char)} (hne : parts ≠ [])
    (h : ∀ p ∈ parts, IsPart p) :
    (pieces (" | ".toList.intercalate parts)).map trim = parts := by
  induction parts with
  | nil => exact absurd rfl hne
  | cons p rest ih =>
    have hp := h p List.mem_cons_self
    have hbar : ∀ c ∈ p, c ≠ '|' := fun c hc => (hp.2 c hc).1
    cases rest with
    | nil =>
      have htrim := hp.trim_append (b := []) (by simp)
      simpa [pieces_eq_self hbar] using htrim
    | cons q rest =>
      have hrest := ih (by simp) fun x hx => h x (List.mem_cons_of_mem p hx)
      have htext : " | ".toList.intercalate (p :: q :: rest) =
          (p ++ [' ']) ++ '|' :: ' ' :: " | ".toList.intercalate (q :: rest) := by
        simp [List.intercalate_cons_cons]
      have hfirst : pieces (p ++ [' ']) = [p ++ [' ']] := by
        apply pieces_eq_self
        intro c hc
        rcases List.mem_append.mp hc with hc | hc
        · exact hbar c hc
        · exact List.mem_singleton.mp hc ▸ by decide
      have htrim := hp.trim_append (b := [' ']) (List.forall_mem_singleton.mpr (by decide))
      rw [htext, pieces_append_bar, hfirst, List.map_append, List.map_singleton, htrim,
        map_trim_pieces_blank (by decide), hrest]
      rfl

/-- A text that begins with a part is not blank. -/
theorem trim_intercalate_ne_nil {p : List Char} (hp : IsPart p) (rest : List (List Char)) :
    trim (" | ".toList.intercalate (p :: rest)) ≠ [] := by
  obtain ⟨c, s, rfl⟩ := List.exists_cons_of_ne_nil hp.1
  intro hblank
  have hmem : c ∈ " | ".toList.intercalate ((c :: s) :: rest) := by
    cases rest <;> simp [List.intercalate_cons_cons]
  have hc := trim_eq_nil_iff.mp hblank c hmem
  rw [(hp.2 c List.mem_cons_self).2] at hc
  exact absurd hc (by simp)

theorem foldl_union (ms : List Modifiers) (a : Modifiers) :
    ms.foldl union a = a.union (ms.foldl union empty) := by
  induction ms generalizing a with
  | nil => simp [union, empty]
  | cons m ms ih =>
    rw [List.foldl_cons, List.foldl_cons, ih, ih (empty.union m)]
    simp [union, empty, BitVec.or_assoc]

theorem ofFlags_cons (flag : Flag) (flags : List Flag) :
    ofFlags (flag :: flags) = (ofFlag flag).union (ofFlags flags) := by
  unfold ofFlags
  rw [List.map_cons, List.foldl_cons, foldl_union]
  simp [union, empty]

theorem and_mask (m : Modifiers) (flag : Flag) :
    m.bits &&& flag.mask = if m.contains flag then flag.mask else 0#16 := by
  have hmask : ∃ i : Fin 16, flag.mask = BitVec.twoPow 16 i := by
    cases flag <;> decide
  obtain ⟨i, hi⟩ := hmask
  have hand : m.bits &&& flag.mask = flag.mask ∨ m.bits &&& flag.mask = 0#16 := by
    rw [hi, BitVec.and_twoPow]
    split <;> simp
  by_cases hc : m.bits &&& flag.mask = 0#16
  · simp [contains, hc]
  · have hfull := hand.resolve_right hc
    have hset : m.contains flag = true := by simpa [contains] using hc
    rw [hfull, if_pos hset]

/-- The flags of a set are the part of it that lies in the masks. -/
theorem bits_ofFlags_filter (m : Modifiers) (flags : List Flag) :
    (ofFlags (flags.filter m.contains)).bits = m.bits &&& (ofFlags flags).bits := by
  induction flags with
  | nil => simp [ofFlags, empty]
  | cons flag flags ih =>
    have hand : m.bits &&& (ofFlags (flag :: flags)).bits =
        (if m.contains flag then flag.mask else 0#16) ||| m.bits &&& (ofFlags flags).bits := by
      rw [ofFlags_cons, ← and_mask]
      exact BitVec.and_or_distrib_left
    rw [hand, ← ih]
    by_cases hc : m.contains flag
    · simp [hc, ofFlags_cons, union, ofFlag]
    · simp [hc]

theorem union_unknown (m : Modifiers) :
    (ofFlags (Flag.all.filter m.contains)).union m.unknown = m := by
  have hbits : ((ofFlags (Flag.all.filter m.contains)).union m.unknown).bits = m.bits := by
    show (ofFlags (Flag.all.filter m.contains)).bits ||| m.bits &&& ~~~(ofFlags Flag.all).bits = _
    rw [bits_ofFlags_filter, ← BitVec.and_or_distrib_left, BitVec.or_not_self, BitVec.and_allOnes]
  exact congrArg Modifiers.mk hbits

theorem part?_label (flag : Flag) : part? flag.label.toList = some (ofFlag flag) := by
  cases flag <;> decide

theorem part?_number (m : Modifiers) : part? ('0' :: 'x' :: Nat.toDigits 16 m.toNat) = some m := by
  have hplus : (Nat.toDigits 16 m.toNat).head? ≠ some '+' := by
    intro hhead
    obtain ⟨d, hd, hc⟩ := exists_digitChar_of_mem (List.mem_of_head? hhead)
    have hdigit : ∀ d : Fin 16, '+' ≠ Nat.digitChar d := by decide
    exact hdigit ⟨d, hd⟩ hc
  have hlt : m.toNat < Nat.pow 2 16 := m.bits.isLt
  have hself : ofBits m.toNat = m := by simp [ofBits, toNat]
  simp [part?, bits?, hplus, hexValue?_toDigits, hlt, hself, Nat.toDigits_ne_nil]

def parts (m : Modifiers) : List String :=
  (Flag.all.filter m.contains).map Flag.label ++
    if m.unknown.isEmpty then [] else ["0x" ++ String.ofList (Text.hex 0 m.unknown.toNat)]

theorem toList_number (n : Nat) :
    ("0x" ++ String.ofList (Text.hex 0 n)).toList = '0' :: 'x' :: Nat.toDigits 16 n := by
  simp [Text.hex, List.leftpad]

theorem isPart_of_mem_parts {m : Modifiers} {s : List Char}
    (h : s ∈ m.parts.map String.toList) : IsPart s := by
  obtain ⟨part, hp, rfl⟩ := List.mem_map.mp h
  rcases List.mem_append.mp hp with hp | hp
  · obtain ⟨flag, -, rfl⟩ := List.mem_map.mp hp
    exact isPart_label flag
  · split at hp
    · simp at hp
    · rw [List.mem_singleton.mp hp, toList_number]
      exact isPart_number _

theorem mapM_part?_parts (m : Modifiers) :
    (m.parts.map String.toList).mapM part? =
      some ((Flag.all.filter m.contains).map ofFlag ++
        if m.unknown.isEmpty then [] else [m.unknown]) := by
  have hflags : ∀ flags : List Flag,
      ((flags.map Flag.label).map String.toList).mapM part? = some (flags.map ofFlag) := by
    intro flags
    induction flags with
    | nil => rfl
    | cons flag flags ih =>
      rw [List.map_cons, List.map_cons, List.mapM_cons, part?_label, ih]
      rfl
  rw [parts, List.map_append, List.mapM_append, hflags]
  split
  · rfl
  · rw [List.map_singleton, toList_number, List.mapM_cons, part?_number]
    rfl

/-- The flags and the bits without a flag make up the set. -/
theorem foldl_union_parts (m : Modifiers) :
    ((Flag.all.filter m.contains).map ofFlag ++
      if m.unknown.isEmpty then [] else [m.unknown]).foldl union empty = m := by
  rw [List.foldl_append]
  conv_rhs => rw [← m.union_unknown]
  split
  · have hnone : m.unknown.bits = 0#16 := by simpa [isEmpty] using ‹m.unknown.isEmpty = true›
    simp [union, hnone, ofFlags]
  · rfl

/-- Every set of modifiers is read back from its text form, bits without a flag included. -/
theorem ofSpelling?_spell (m : Modifiers) : ofSpelling? m.spell.toList = some m := by
  have htext : m.spell.toList = " | ".toList.intercalate (m.parts.map String.toList) := by
    simp [spell, parts]
  have hread := m.mapM_part?_parts
  have hparts : ∀ s ∈ m.parts.map String.toList, IsPart s := fun s => isPart_of_mem_parts
  rw [htext]
  cases hp : m.parts.map String.toList with
  | nil =>
    rw [hp] at hread
    have hnone := (Option.some.inj hread).symm
    have hempty := m.foldl_union_parts
    rw [hnone] at hempty
    simp [ofSpelling?, Text.trim, Text.trimEnd, Text.trimStart, ← hempty]
  | cons p rest =>
    rw [hp] at hread hparts
    have hpieces := map_trim_pieces_intercalate (List.cons_ne_nil p rest) hparts
    have hshown := trim_intercalate_ne_nil (hparts p List.mem_cons_self) rest
    have hmap : ∀ text, ((pieces text).mapM fun piece => part? (Text.trim piece)) =
        ((pieces text).map Text.trim).mapM part? := by
      intro text
      rw [List.mapM_map]
      rfl
    rw [ofSpelling?, if_neg (by simpa using hshown), hmap, hpieces, hread, Option.map_some,
      m.foldl_union_parts]

end Modifiers

end DeclForest
