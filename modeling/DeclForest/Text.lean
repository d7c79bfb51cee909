/-!
Texts as lists of characters: white space, lines, the names of types, the text of comments and
hexadecimal digits.
-/

namespace DeclForest.Text

/-! ## White space

`isBlank` is the White_Space property of Unicode; the trims cut characters of that class off one end
or off both, and nothing else. -/

/-- Code points with the White_Space property, as inclusive ranges in ascending order. -/
def blankRanges : List (Nat × Nat) :=
  [(0x09, 0x0D), (0x20, 0x20), (0x85, 0x85), (0xA0, 0xA0), (0x1680, 0x1680), (0x2000, 0x200A),
   (0x2028, 0x2029), (0x202F, 0x202F), (0x205F, 0x205F), (0x3000, 0x3000)]

def isBlank (c : Char) : Bool :=
  blankRanges.any fun range => range.1 ≤ c.toNat && c.toNat ≤ range.2

def trimStart (s : List Char) : List Char := s.dropWhile isBlank

def trimEnd (s : List Char) : List Char := (s.reverse.dropWhile isBlank).reverse

def trim (s : List Char) : List Char := trimEnd (trimStart s)

/-- The property covers 25 code points. -/
example : (blankRanges.map fun range => range.2 + 1 - range.1).sum = 25 := by decide

example : trim " \u00a0a b\u3000".toList = "a b".toList := by decide

/-! ## Lines

A line feed ends a line and takes one carriage return right before it along; any other carriage
return is an ordinary character, and nothing follows a final line feed. -/

def lines : List Char → List (List Char)
  | [] => []
  | '\n' :: rest => [] :: lines rest
  | '\r' :: '\n' :: rest => [] :: lines rest
  | c :: rest =>
    match lines rest with
    | [] => [[c]]
    | line :: others => (c :: line) :: others

def lineStrings (text : String) : List String := (lines text.toList).map String.ofList

example : lines "a\r\n\nb\r".toList = ["a".toList, [], "b\r".toList] := by decide
example : lines "a\n".toList = ["a".toList] := by decide

/-! ## Names

A nested type is separated from its enclosing type by `$` in a qualified name and by a dot in source
text; the simple name keeps the enclosing types and drops the package. -/

def dotted (name : List Char) : List Char := name.map fun c => if c = '$' then '.' else c

def lastSegment (name : List Char) : List Char := (name.reverse.takeWhile (· ≠ '.')).reverse

def sourceName (name : String) : String := String.ofList (dotted name.toList)

def simpleName (name : String) : String := String.ofList (dotted (lastSegment name.toList))

example : sourceName "java.util.Map$Entry" = "java.util.Map.Entry" := by decide
example : simpleName "java.util.Map$Entry" = "Map.Entry" := by decide

@[simp] theorem length_dotted (name : List Char) : (dotted name).length = name.length := by
  simp [dotted]

theorem dollar_not_mem_dotted (name : List Char) : '$' ∉ dotted name := by
  intro h
  obtain ⟨c, -, hc⟩ := List.mem_map.1 h
  split at hc
  · exact absurd hc (by decide)
  · exact absurd hc ‹_›

/-! ## Comments

The text of a comment as lines without the indentation they share, ready to be indented anew.
Blank lines at both ends are dropped and trailing white space goes everywhere. The shared margin is
counted in UTF-8 bytes; a line in which it would end inside a character loses all leading blanks. -/

def dropBlankEdges (ls : List (List Char)) : List (List Char) :=
  ((ls.dropWhile List.isEmpty).reverse.dropWhile List.isEmpty).reverse

def byteLength : List Char → Nat
  | [] => 0
  | c :: rest => c.utf8Size + byteLength rest

def dropBytes? : List Char → Nat → Option (List Char)
  | s, 0 => some s
  | [], _ + 1 => none
  | c :: rest, n + 1 => if c.utf8Size ≤ n + 1 then dropBytes? rest (n + 1 - c.utf8Size) else none

def indentation (line : List Char) : Nat := byteLength (line.takeWhile isBlank)

def margin (ls : List (List Char)) : Nat :=
  ((ls.filter fun line => !line.isEmpty).map indentation).min?.getD 0

def cutMargin (width : Nat) (line : List Char) : List Char :=
  (dropBytes? line width).getD (trimStart line)

def commentLines (text : List Char) : List (List Char) :=
  let kept := dropBlankEdges ((lines text).map trimEnd)
  kept.map (cutMargin (margin kept))

def commentStrings (text : String) : List String := (commentLines text.toList).map String.ofList

example : commentStrings "\n    first\n      second\n\n    third\n" =
    ["first", "  second", "", "third"] := by decide +kernel

/-! ## Hexadecimal numbers

Digits are written in lower case and read in either. -/

def hexDigit? (c : Char) : Option Nat :=
  if '0' ≤ c ∧ c ≤ '9' then some (c.toNat - '0'.toNat)
  else if 'a' ≤ c ∧ c ≤ 'f' then some (c.toNat - 'a'.toNat + 10)
  else if 'A' ≤ c ∧ c ≤ 'F' then some (c.toNat - 'A'.toNat + 10)
  else none

def hex (width n : Nat) : List Char := List.leftpad width '0' (Nat.toDigits 16 n)

theorem hexDigit?_digitChar {d : Nat} (h : d < 16) : hexDigit? (Nat.digitChar d) = some d := by
  have : ∀ e : Fin 16, hexDigit? (Nat.digitChar e.val) = some e.val := by decide
  exact this ⟨d, h⟩

theorem lt_of_hexDigit? {c : Char} {d : Nat} (h : hexDigit? c = some d) : d < 16 := by
  unfold hexDigit? at h
  simp only [Char.le_def, UInt32.le_iff_toNat_le] at h
  simp only [Char.toNat] at h
  split at h
  · cases h
    rename_i h
    have : ('9' : Char).val.toNat = 57 := rfl
    have : ('0' : Char).val.toNat = 48 := rfl
    omega
  · split at h
    · cases h
      rename_i h
      have : ('f' : Char).val.toNat = 102 := rfl
      have : ('a' : Char).val.toNat = 97 := rfl
      omega
    · split at h
      · cases h
        rename_i h
        have : ('F' : Char).val.toNat = 70 := rfl
        have : ('A' : Char).val.toNat = 65 := rfl
        omega
      · cases h

end DeclForest.Text
