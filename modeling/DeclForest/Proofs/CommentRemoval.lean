import DeclForest.Text
import Mathlib.Data.List.Infix

/-!
Taking the comments out of a source text. A comment runs from two slashes to the end of the line, or
from a slash and a star to the next star and slash; a line on which a comment has left nothing but
blanks is taken out with it. Strings are not looked at: a mark of a comment is one wherever it is.
-/

namespace DeclForest.Source

/-- Where a reader of a source text stands. The marks at the two ends of a block are read in two
steps, so that no character is part of both. -/
inductive Mode where
  | code | line | opening | block | closing
  deriving DecidableEq, Repr

def isLineEnd (c : Char) : Bool := c = '\n' || c = '\r'

def outside : Mode → List Char → List (Option Char)
  | _, [] => []
  | .code, c :: rest =>
    if c = '/' ∧ rest.head? = some '/' then none :: outside .line rest
    else if c = '/' ∧ rest.head? = some '*' then none :: outside .opening rest
    else some c :: outside .code rest
  | .line, c :: rest => if isLineEnd c then some c :: outside .code rest else outside .line rest
  | .opening, _ :: rest => outside .block rest
  | .block, c :: rest =>
    if c = '*' ∧ rest.head? = some '/' then outside .closing rest else outside .block rest
  | .closing, _ :: rest => outside .code rest

/-- Closes the gaps; `pending` is what was kept of the present line. -/
def closeGaps (pending : List Char) (gap : Bool) : List (Option Char) → List Char
  | [] => if gap && pending.all Text.isBlank then [] else pending
  | none :: rest => closeGaps pending true rest
  | some c :: rest =>
    if c = '\n' then
      (if gap && pending.all Text.isBlank then [] else pending ++ ['\n']) ++
        closeGaps [] false rest
    else closeGaps (pending ++ [c]) gap rest

def uncommented (text : List Char) : List Char := closeGaps [] false (outside .code text)

def Plain (text : List Char) : Prop := ¬['/', '/'] <:+: text ∧ ¬['/', '*'] <:+: text

instance (text : List Char) : Decidable (Plain text) := inferInstanceAs (Decidable (_ ∧ _))

variable {text rest : List Char}

theorem Plain.of_infix (h : Plain text) {part : List Char} (hp : part <:+: text) : Plain part :=
  ⟨fun hin => h.1 (hin.trans hp), fun hin => h.2 (hin.trans hp)⟩

theorem outside_plain (h : Plain text) (rest : List Char) :
    outside .code (text ++ '\n' :: rest) = text.map some ++ some '\n' :: outside .code rest := by
  induction text with
  | nil => simp [outside]
  | cons c text ih =>
    have hnot : ∀ x, ¬['/', x] <:+: c :: text → x ≠ '\n' →
        ¬(c = '/' ∧ (text ++ '\n' :: rest).head? = some x) := by
      rintro x hx hne ⟨rfl, hhead⟩
      cases text with
      | nil => exact hne (Option.some.inj hhead).symm
      | cons y text =>
        obtain rfl := Option.some.inj hhead
        exact hx ⟨[], text, rfl⟩
    have hrest := ih (h.of_infix (List.infix_cons List.infix_rfl))
    rw [List.cons_append, outside, if_neg (hnot '/' h.1 (by decide)),
      if_neg (hnot '*' h.2 (by decide)), hrest]
    rfl

theorem closeGaps_line (pending text : List Char) (rest : List (Option Char)) :
    closeGaps pending false (text.map some ++ some '\n' :: rest) =
      pending ++ text ++ '\n' :: closeGaps [] false rest := by
  induction text generalizing pending with
  | nil => simp [closeGaps]
  | cons c text ih =>
    by_cases hc : c = '\n'
    · simp [closeGaps, hc, ih]
    · simp [closeGaps, hc, ih]

/-- Lines in which no comment begins stay as they are. -/
theorem uncommented_plain (h : Plain text) (rest : List Char) :
    uncommented (text ++ '\n' :: rest) = text ++ '\n' :: uncommented rest := by
  rw [uncommented, outside_plain h, closeGaps_line]
  rfl

theorem outside_tabs (n : Nat) (text : List Char) :
    outside .code (List.replicate n '\t' ++ text) =
      (List.replicate n '\t').map some ++ outside .code text := by
  induction n with
  | zero => rfl
  | succ n ih => simp [List.replicate_succ, outside, ih]

theorem closeGaps_tabs (n : Nat) (pending : List Char) (gap : Bool) (rest : List (Option Char)) :
    closeGaps pending gap ((List.replicate n '\t').map some ++ rest) =
      closeGaps (pending ++ List.replicate n '\t') gap rest := by
  induction n generalizing pending with
  | zero => simp
  | succ n ih =>
    rw [List.replicate_succ, List.map_cons, List.cons_append, closeGaps, if_neg (by decide), ih]
    simp

theorem isBlank_of_mem_tabs {n : Nat} {c : Char} (h : c ∈ List.replicate n '\t') :
    Text.isBlank c = true := by
  rw [List.eq_of_mem_replicate h]
  decide

theorem closeGaps_gap (n : Nat) (rest : List (Option Char)) :
    closeGaps [] false ((List.replicate n '\t').map some ++ none :: some '\n' :: rest) =
      closeGaps [] false rest := by
  have hblank : (List.replicate n '\t').all Text.isBlank = true :=
    List.all_eq_true.mpr fun _ => isBlank_of_mem_tabs
  rw [closeGaps_tabs]
  simp [closeGaps, hblank]

theorem outside_line (h : ∀ c ∈ text, isLineEnd c = false) (rest : List Char) :
    outside .line (text ++ '\n' :: rest) = some '\n' :: outside .code rest := by
  induction text with
  | nil => simp [outside, isLineEnd]
  | cons c text ih =>
    rw [List.cons_append, outside, h c List.mem_cons_self,
      ih fun x hx => h x (List.mem_cons_of_mem c hx)]
    rfl

/-- A comment that runs to the end of its line goes, and its line with it. -/
theorem uncommented_lineComment (n : Nat) (h : ∀ c ∈ text, isLineEnd c = false)
    (rest : List Char) :
    uncommented (List.replicate n '\t' ++ '/' :: '/' :: (text ++ '\n' :: rest)) =
      uncommented rest := by
  have hslash : outside .code ('/' :: '/' :: (text ++ '\n' :: rest)) =
      none :: some '\n' :: outside .code rest := by
    rw [outside, if_pos ⟨rfl, rfl⟩, outside, outside_line h]
    rfl
  rw [uncommented, outside_tabs, hslash, closeGaps_gap]
  rfl

theorem outside_block (h : ¬['*', '/'] <:+: text) (rest : List Char) :
    outside .block (text ++ '*' :: '/' :: rest) = outside .code rest := by
  induction text with
  | nil => simp [outside]
  | cons c text ih =>
    have hnot : ¬(c = '*' ∧ (text ++ '*' :: '/' :: rest).head? = some '/') := by
      rintro ⟨rfl, hhead⟩
      cases text with
      | nil => exact absurd (Option.some.inj hhead) (by decide)
      | cons y text =>
        obtain rfl := Option.some.inj hhead
        exact h ⟨[], text, rfl⟩
    rw [List.cons_append, outside, if_neg hnot, ih fun hin => h (List.infix_cons hin)]

/-- A block goes with the lines it stands on. -/
theorem uncommented_blockComment (n : Nat) (h : ¬['*', '/'] <:+: text) (rest : List Char) :
    uncommented (List.replicate n '\t' ++ '/' :: '*' :: (text ++ '*' :: '/' :: '\n' :: rest)) =
      uncommented rest := by
  have hblock : outside .code ('/' :: '*' :: (text ++ '*' :: '/' :: '\n' :: rest)) =
      none :: some '\n' :: outside .code rest := by
    rw [outside, if_neg (by simp), if_pos ⟨rfl, rfl⟩, outside, outside_block h]
    simp [outside]
  rw [uncommented, outside_tabs, hblock, closeGaps_gap]
  rfl

example : uncommented "/** a\n\n * b */\n\tint x; // c\n// d\n\n".toList =
    "\tint x; \n\n".toList := by decide

end DeclForest.Source
