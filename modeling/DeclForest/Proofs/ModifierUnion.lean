import DeclForest.Proofs.Spelling
import Mathlib.Data.List.Induction
import Mathlib.Data.List.Sort

/-!
The text form of a set of modifiers as a notation for unions. A bar between two texts stands for the
union of what they mean, and refuses a blank on either side; what a text means is settled by the
parts between its bars, in any order, any number of times and with any white space around them. Of
all texts for one set, writing gives the same one: each flag once from the lowest bit up, and the
other bits as one number.
-/

namespace DeclForest

namespace Modifiers

open Text

variable {s t : List Char} {ps qs : List (List Char)} {m : Modifiers}

section Union

variable (a b : Modifiers)

@[simp] theorem getLsbD_union (i : Nat) :
    (a.union b).bits.getLsbD i = (a.bits.getLsbD i || b.bits.getLsbD i) := BitVec.getLsbD_or

theorem getLsbD_foldl_union (ms : List Modifiers) (i : Nat) :
    (ms.foldl union a).bits.getLsbD i = (a.bits.getLsbD i || ms.any (·.bits.getLsbD i)) := by
  induction ms generalizing a with
  | nil => simp
  | cons m ms ih => rw [List.foldl_cons, ih, getLsbD_union, List.any_cons, Bool.or_assoc]

end Union

def partsOf (s : List Char) : List (List Char) := (pieces s).map trim

/-- All that the parts mean, those left out that mean nothing. -/
def allOf (ps : List (List Char)) : Modifiers := (ps.filterMap part?).foldl union empty

theorem allOf_append (ps qs : List (List Char)) :
    allOf (ps ++ qs) = (allOf ps).union (allOf qs) := by
  rw [allOf, List.filterMap_append, List.foldl_append, foldl_union]
  rfl

/-- A bit is in the whole if it is in one of the parts. -/
theorem getLsbD_allOf (ps : List (List Char)) (i : Nat) :
    (allOf ps).bits.getLsbD i = true ↔
      ∃ part ∈ ps, ∃ a, part? part = some a ∧ a.bits.getLsbD i = true := by
  have hempty : empty.bits.getLsbD i = false := by simp [empty]
  rw [allOf, getLsbD_foldl_union, hempty, Bool.false_or, List.any_eq_true]
  constructor
  · rintro ⟨a, ha, hi⟩
    obtain ⟨part, hpart, hp⟩ := List.mem_filterMap.mp ha
    exact ⟨part, hpart, a, hp, hi⟩
  · rintro ⟨part, hpart, a, hp, hi⟩
    exact ⟨a, List.mem_filterMap.mpr ⟨part, hpart, hp⟩, hi⟩

/-- The whole depends on which parts there are, and on nothing else. -/
theorem allOf_congr (h : ∀ part, part ∈ ps ↔ part ∈ qs) : allOf ps = allOf qs := by
  have hbits : (allOf ps).bits = (allOf qs).bits := by
    apply BitVec.eq_of_getLsbD_eq
    intro i _
    rw [Bool.eq_iff_iff, getLsbD_allOf, getLsbD_allOf]
    simp only [h]
  exact congrArg Modifiers.mk hbits

theorem mapM_part?_eq_some_iff {ms : List Modifiers} :
    ps.mapM part? = some ms ↔
      (∀ part ∈ ps, ∃ a, part? part = some a) ∧ ps.filterMap part? = ms := by
  induction ps generalizing ms with
  | nil => simp
  | cons p ps ih =>
    rw [List.mapM_cons]
    cases hp : part? p with
    | none => simp [hp]
    | some a =>
      rw [List.filterMap_cons_some hp]
      show ((ps.mapM part?).bind fun rest => some (a :: rest)) = some ms ↔ _
      constructor
      · intro h
        obtain ⟨rest, hrest, hms⟩ := Option.bind_eq_some_iff.mp h
        obtain ⟨hall, hfound⟩ := ih.mp hrest
        obtain rfl := Option.some.inj hms
        exact ⟨List.forall_mem_cons.mpr ⟨⟨a, hp⟩, hall⟩, congrArg (a :: ·) hfound⟩
      · rintro ⟨hall, rfl⟩
        have hrest := ih.mpr ⟨(List.forall_mem_cons.mp hall).2, rfl⟩
        rw [hrest]
        rfl

theorem ofSpelling?_of_blank (h : trim s = []) : ofSpelling? s = some empty := by
  simp [ofSpelling?, h]

/-- A text that is not blank means what its parts mean, and nothing unless each of them does. -/
theorem ofSpelling?_eq_some_iff (h : trim s ≠ []) :
    ofSpelling? s = some m ↔
      (∀ part ∈ partsOf s, ∃ a, part? part = some a) ∧ m = allOf (partsOf s) := by
  have hparts : ((pieces s).mapM fun piece => part? (trim piece)) = (partsOf s).mapM part? := by
    rw [partsOf, List.mapM_map]
    rfl
  rw [ofSpelling?, if_neg (by simpa using h), hparts, Option.map_eq_some_iff]
  constructor
  · rintro ⟨ms, hms, rfl⟩
    obtain ⟨hall, rfl⟩ := mapM_part?_eq_some_iff.mp hms
    exact ⟨hall, rfl⟩
  · rintro ⟨hall, rfl⟩
    exact ⟨_, mapM_part?_eq_some_iff.mpr ⟨hall, rfl⟩, rfl⟩

theorem ne_bar_of_isBlank {c : Char} (h : isBlank c = true) : c ≠ '|' := by
  rintro rfl
  exact absurd h (by decide)

/-- A blank text is one part, and that means nothing. -/
theorem partsOf_of_blank (h : trim s = []) : partsOf s = [[]] := by
  have hbars : ∀ c ∈ s, c ≠ '|' := fun c hc => ne_bar_of_isBlank (trim_eq_nil_iff.mp h c hc)
  rw [partsOf, pieces_eq_self hbars, List.map_singleton, h]

theorem partsOf_append_bar (s t : List Char) :
    partsOf (s ++ '|' :: t) = partsOf s ++ partsOf t := by
  rw [partsOf, pieces_append_bar, List.map_append]
  rfl

theorem partsOf_blanks_append {blanks : List Char} (hb : ∀ c ∈ blanks, isBlank c = true)
    (s : List Char) : partsOf (blanks ++ s) = partsOf s := by
  induction blanks with
  | nil => rfl
  | cons c blanks ih =>
    have hrest := ih fun x hx => hb x (List.mem_cons_of_mem c hx)
    rw [← hrest]
    exact map_trim_pieces_blank (hb c List.mem_cons_self) (blanks ++ s)

/-- Blanks behind a text are behind its last part. -/
theorem partsOf_append_blanks {blanks : List Char} (hb : ∀ c ∈ blanks, isBlank c = true)
    (s : List Char) : partsOf (s ++ blanks) = partsOf s := by
  have hlast : ∀ last : List Char, '|' ∉ last → partsOf (last ++ blanks) = partsOf last := by
    intro last hbars
    have hone : ∀ c ∈ last, c ≠ '|' := fun c hc hbar => hbars (hbar ▸ hc)
    have hboth : ∀ c ∈ last ++ blanks, c ≠ '|' := by
      intro c hc
      rcases List.mem_append.mp hc with hc | hc
      · exact hone c hc
      · exact ne_bar_of_isBlank (hb c hc)
    rw [partsOf, partsOf, pieces_eq_self hboth, pieces_eq_self hone, List.map_singleton,
      List.map_singleton, trim_append_of_blanks hb]
  by_cases hbar : '|' ∈ s
  · -- the last bar is the first one from behind
    obtain ⟨last, front, hreverse, hbars⟩ :=
      List.eq_append_cons_of_mem (List.mem_reverse.mpr hbar)
    have hs : s = front.reverse ++ '|' :: last.reverse := by
      rw [← List.reverse_reverse s, hreverse]
      simp
    rw [hs, List.append_assoc, List.cons_append, partsOf_append_bar, partsOf_append_bar,
      hlast last.reverse (by simpa using hbars)]
  · exact hlast s hbar

theorem trim_append_bar_ne_nil (s t : List Char) : trim (s ++ '|' :: t) ≠ [] := by
  intro h
  have hbar := trim_eq_nil_iff.mp h '|' (List.mem_append_right s List.mem_cons_self)
  exact ne_bar_of_isBlank hbar rfl

/-- Where all parts mean something, the text is not blank, because an empty part means nothing. -/
theorem trim_ne_nil_of_parts (h : ∀ part ∈ partsOf s, ∃ a, part? part = some a) : trim s ≠ [] := by
  intro hblank
  rw [partsOf_of_blank hblank] at h
  obtain ⟨a, ha⟩ := h [] List.mem_cons_self
  have hnone : part? [] = none := by decide
  rw [hnone] at ha
  exact absurd ha (by simp)

/-- A bar is a union. -/
theorem ofSpelling?_append_bar (s t : List Char) (m : Modifiers) :
    ofSpelling? (s ++ '|' :: t) = some m ↔ trim s ≠ [] ∧ trim t ≠ [] ∧
      ∃ a b, ofSpelling? s = some a ∧ ofSpelling? t = some b ∧ m = a.union b := by
  rw [ofSpelling?_eq_some_iff (trim_append_bar_ne_nil s t), partsOf_append_bar, allOf_append,
    List.forall_mem_append]
  constructor
  · rintro ⟨⟨hs, ht⟩, rfl⟩
    have hs' := trim_ne_nil_of_parts hs
    have ht' := trim_ne_nil_of_parts ht
    exact ⟨hs', ht', _, _, (ofSpelling?_eq_some_iff hs').mpr ⟨hs, rfl⟩,
      (ofSpelling?_eq_some_iff ht').mpr ⟨ht, rfl⟩, rfl⟩
  · rintro ⟨hs', ht', a, b, ha, hb, rfl⟩
    obtain ⟨hs, rfl⟩ := (ofSpelling?_eq_some_iff hs').mp ha
    obtain ⟨ht, rfl⟩ := (ofSpelling?_eq_some_iff ht').mp hb
    exact ⟨⟨hs, ht⟩, rfl⟩

/-- Order, repetition and white space around parts do not matter. -/
theorem ofSpelling?_congr (hs : trim s ≠ []) (ht : trim t ≠ [])
    (h : ∀ part, part ∈ partsOf s ↔ part ∈ partsOf t) : ofSpelling? s = ofSpelling? t := by
  apply Option.ext
  intro m
  rw [ofSpelling?_eq_some_iff hs, ofSpelling?_eq_some_iff ht, allOf_congr h]
  simp only [h]

theorem ofSpelling?_between {front back : List Char} (hf : ∀ c ∈ front, isBlank c = true)
    (hb : ∀ c ∈ back, isBlank c = true) (s : List Char) :
    ofSpelling? (front ++ s ++ back) = ofSpelling? s := by
  have htrim : trim (front ++ s ++ back) = trim s := by
    rw [trim_append_of_blanks hb, trim_blanks_append hf]
  have hparts : partsOf (front ++ s ++ back) = partsOf s := by
    rw [partsOf_append_blanks hb, partsOf_blanks_append hf]
  by_cases hs : trim s = []
  · rw [ofSpelling?_of_blank hs, ofSpelling?_of_blank (htrim.trans hs)]
  · apply ofSpelling?_congr (htrim ▸ hs) hs
    intro part
    rw [hparts]

structure LowerHex (n : Nat) (digits : List Char) : Prop where
  lower : ∀ c ∈ digits, c ∈ "0123456789abcdef".toList
  value : hexValue? digits = some n
  start : digits.head? ≠ some '0'

theorem lower_eq_map : "0123456789abcdef".toList = (List.range 16).map Nat.digitChar := by decide

theorem digitChar_mem_lower {d : Nat} (h : d < 16) :
    Nat.digitChar d ∈ "0123456789abcdef".toList := by
  rw [lower_eq_map]
  exact List.mem_map_of_mem (List.mem_range.mpr h)

theorem eq_digitChar_of_lower {c : Char} {d : Nat} (hc : c ∈ "0123456789abcdef".toList)
    (hd : hexDigit? c = some d) : c = Nat.digitChar d := by
  rw [lower_eq_map] at hc
  obtain ⟨e, he, rfl⟩ := List.mem_map.mp hc
  rw [hexDigit?_digitChar (List.mem_range.mp he), Option.some.injEq] at hd
  rw [hd]

theorem head?_toDigits {n : Nat} (hn : n ≠ 0) : (Nat.toDigits 16 n).head? ≠ some '0' := by
  induction n using Nat.strong_induction_on with
  | _ n ih =>
    rw [Nat.toDigits_eq_if (by decide)]
    split
    · have hall : ∀ d : Fin 16, d.val ≠ 0 → Nat.digitChar d.val ≠ '0' := by decide
      simpa using hall ⟨n, ‹n < 16›⟩ hn
    · rw [List.head?_append_of_ne_nil _ Nat.toDigits_ne_nil]
      exact ih (n / 16) (by omega) (by omega)

/-- From the last digit to the first: what stands before it is a number that is not zero, or the
digits would start with a zero. -/
theorem LowerHex.eq_toDigits {n : Nat} {digits : List Char} (h : LowerHex n digits)
    (hne : digits ≠ []) : n ≠ 0 ∧ digits = Nat.toDigits 16 n := by
  induction digits using List.reverseRecOn generalizing n with
  | nil => exact absurd rfl hne
  | append_singleton digits c ih =>
    have hvalue := h.value
    rw [hexValue?_append] at hvalue
    obtain ⟨v, hv, hlast⟩ := Option.bind_eq_some_iff.mp hvalue
    obtain ⟨d, hd, rfl⟩ := Option.map_eq_some_iff.mp hlast
    have hd16 := lt_of_hexDigit? hd
    have hc : c = Nat.digitChar d := eq_digitChar_of_lower (h.lower c (by simp)) hd
    by_cases hnil : digits = []
    · subst hnil
      obtain rfl : 0 = v := Option.some.inj hv
      have hzero : d ≠ 0 := by
        rintro rfl
        exact h.start (by rw [hc]; rfl)
      refine ⟨by omega, ?_⟩
      rw [Nat.toDigits_eq_if (by decide), if_pos (by omega), hc]
      simp
    · have hstart : digits.head? ≠ some '0' := by
        have hfirst := h.start
        rwa [List.head?_append_of_ne_nil _ hnil] at hfirst
      have hfront : LowerHex v digits :=
        ⟨fun x hx => h.lower x (List.mem_append_left _ hx), hv, hstart⟩
      obtain ⟨hv0, hdigits⟩ := ih hfront hnil
      have hdiv : (16 * v + d) / 16 = v := by omega
      have hmod : (16 * v + d) % 16 = d := by omega
      refine ⟨by omega, ?_⟩
      rw [Nat.toDigits_eq_if (by decide), if_neg (by omega), hdiv, hmod, ← hdigits, hc]

theorem lowerHex_iff {n : Nat} {digits : List Char} (hn : n ≠ 0) :
    LowerHex n digits ↔ digits = Nat.toDigits 16 n := by
  constructor
  · intro h
    have hne : digits ≠ [] := by
      rintro rfl
      exact hn (Option.some.inj h.value).symm
    exact (h.eq_toDigits hne).2
  · rintro rfl
    refine ⟨?_, hexValue?_toDigits n, head?_toDigits hn⟩
    intro c hc
    obtain ⟨d, hd, rfl⟩ := exists_digitChar_of_mem hc
    exact digitChar_mem_lower hd

inductive OtherBits (m : Modifiers) : List String → Prop where
  | none : m.unknown = empty → OtherBits m []
  | number {digits : List Char} : m.unknown ≠ empty → LowerHex m.unknown.toNat digits →
      OtherBits m ["0x" ++ String.ofList digits]

/-- The text lists the flags of the set, each once and from the lowest bit up, and behind them the
other bits. -/
def IsCanonical (m : Modifiers) (text : String) : Prop :=
  ∃ (flags : List Flag) (others : List String),
    flags.Pairwise (fun a b => a.mask.toNat < b.mask.toNat) ∧
    (∀ flag, flag ∈ flags ↔ m.contains flag = true) ∧ OtherBits m others ∧
    text = " | ".intercalate (flags.map Flag.label ++ others)

theorem toNat_eq_zero_iff : m.toNat = 0 ↔ m = empty := by
  obtain ⟨bits⟩ := m
  simp [toNat, empty, BitVec.toNat_eq]

theorem isEmpty_iff : m.isEmpty = true ↔ m = empty := by
  obtain ⟨bits⟩ := m
  simp [isEmpty, empty]

theorem otherBits_iff {others : List String} : OtherBits m others ↔
    others = if m.unknown.isEmpty then [] else
      ["0x" ++ String.ofList (hex 0 m.unknown.toNat)] := by
  have hhex : ∀ n, hex 0 n = Nat.toDigits 16 n := by
    intro n
    simp [hex, List.leftpad]
  rw [hhex]
  by_cases h : m.unknown = empty
  · rw [if_pos (isEmpty_iff.mpr h)]
    constructor
    · rintro (- | ⟨hne, -⟩)
      · rfl
      · exact absurd h hne
    · rintro rfl
      exact .none h
  · rw [if_neg (mt isEmpty_iff.mp h)]
    have hn : m.unknown.toNat ≠ 0 := mt toNat_eq_zero_iff.mp h
    constructor
    · rintro (hnone | ⟨-, hdigits⟩)
      · exact absurd hnone h
      · rw [(lowerHex_iff hn).mp hdigits]
    · rintro rfl
      exact .number h ((lowerHex_iff hn).mpr rfl)

theorem pairwise_all : Flag.all.Pairwise fun a b => a.mask.toNat < b.mask.toNat := by decide

/-- A list of flags is determined by which flags are in it, if it goes up the bits. -/
theorem flags_eq_filter {flags : List Flag} {p : Flag → Bool}
    (h : flags.Pairwise fun a b => a.mask.toNat < b.mask.toNat)
    (hp : ∀ flag, flag ∈ flags ↔ p flag = true) : flags = Flag.all.filter p := by
  have : Std.Irrefl fun a b : Flag => a.mask.toNat < b.mask.toNat := ⟨fun _ => Nat.lt_irrefl _⟩
  have : Std.Antisymm fun a b : Flag => a.mask.toNat < b.mask.toNat :=
    ⟨fun _ _ hab hba => absurd hab (Nat.lt_asymm hba)⟩
  apply h.eq_of_mem_iff (pairwise_all.filter p)
  intro flag
  simp [hp, Flag.mem_all]

/-- Writing gives the canonical text, and no other text is canonical. -/
theorem isCanonical_iff {text : String} : IsCanonical m text ↔ text = m.spell := by
  constructor
  · rintro ⟨flags, others, hsorted, hflags, hothers, rfl⟩
    rw [spell, flags_eq_filter hsorted hflags, otherBits_iff.mp hothers]
  · rintro rfl
    refine ⟨Flag.all.filter m.contains, _, pairwise_all.filter _, ?_, otherBits_iff.mpr rfl, rfl⟩
    intro flag
    simp [Flag.mem_all]

structure ReadsAsUnion (s : List Char) : Prop where
  blank : trim s = [] → ofSpelling? s = some empty
  /-- A bar is accepted between two texts that are, and is the union of what they mean. -/
  bar : ∀ t m, ofSpelling? (s ++ '|' :: t) = some m ↔ trim s ≠ [] ∧ trim t ≠ [] ∧
    ∃ a b, ofSpelling? s = some a ∧ ofSpelling? t = some b ∧ m = a.union b
  /-- Order, repetition and white space around parts do not matter. -/
  parts : ∀ t, trim s ≠ [] → trim t ≠ [] → (∀ part, part ∈ partsOf s ↔ part ∈ partsOf t) →
    ofSpelling? s = ofSpelling? t
  /-- White space around a text does not matter, and by `bar` none around what stands in it. -/
  spaced : ∀ front back, (∀ c ∈ front, isBlank c = true) → (∀ c ∈ back, isBlank c = true) →
    ofSpelling? (front ++ s ++ back) = ofSpelling? s
  readBack : ∀ m, ofSpelling? s = some m → ofSpelling? m.spell.toList = some m
  canonical : ∀ m, ofSpelling? s = some m → ∀ text, IsCanonical m text ↔ text = m.spell
  same : ∀ t m n, ofSpelling? s = some m → ofSpelling? t = some n → (m.spell = n.spell ↔ m = n)

theorem readsAsUnion (s : List Char) : ReadsAsUnion s where
  blank := ofSpelling?_of_blank
  bar := ofSpelling?_append_bar s
  parts _ := ofSpelling?_congr
  spaced _ _ hf hb := ofSpelling?_between hf hb s
  readBack m _ := ofSpelling?_spell m
  canonical _ _ _ := isCanonical_iff
  same _ m n _ _ := by
    constructor
    · intro h
      have hread := ofSpelling?_spell m
      rw [h, ofSpelling?_spell n] at hread
      exact (Option.some.inj hread).symm
    · rintro rfl
      rfl

/-- A number may give flags and bits without a flag at once, and give them again. -/
example : (ofSpelling? "0x0211|\u2003FINAL | 0x+200".toList).map spell =
    some "PUBLIC | FINAL | 0x200" := by decide +kernel

end Modifiers

end DeclForest
