import DeclForest.Text

/-!
Characters of YAML and places in a text. Breaks end a line, blanks separate within a line, a gap is
either; a text ends where a gap would do, so the end of the text counts as one.
-/

namespace DeclForest.Yaml

def isAllowed (c : Char) : Bool :=
  let n := c.toNat
  n = 0x09 || n = 0x0A || n = 0x0D || 0x20 ≤ n && n ≤ 0x7E || n = 0x85 ||
    0xA0 ≤ n && n ≤ 0xD7FF || 0xE000 ≤ n && n ≤ 0xFFFD || 0x10000 ≤ n

def isBlank (c : Char) : Bool := c = ' ' || c = '\t'

def isBreak (c : Char) : Bool :=
  c = '\n' || c = '\r' || c = '\u0085' || c = '\u2028' || c = '\u2029'

def isGap (c : Char) : Bool := isBlank c || isBreak c

def gapAt (s : List Char) : Bool := s.head?.all isGap

def startsIn (chars : String) (s : List Char) : Bool := s.head?.any fun c => c ∈ chars.toList

def isNameChar (c : Char) : Bool := c.isAlphanum || c = '_' || c = '-'

/-- The characters that may start no plain scalar, the ones that depend on what follows apart. -/
def indicators : String := ",[]{}#&*!|>'\"%@`"

def flowIndicators : String := ",[]{}"

/-- What a break is read as and how many characters it takes: a carriage return and the line feed
after it are one break, and all breaks but the two separators are read as line feeds. -/
def breakAt : List Char → Option (Char × Nat)
  | '\r' :: '\n' :: _ => some ('\n', 2)
  | c :: _ =>
    if c = '\u2028' ∨ c = '\u2029' then some (c, 1)
    else if isBreak c then some ('\n', 1)
    else none
  | [] => none

def hexValue? (digits : Nat) (s : List Char) : Option Nat :=
  if s.length < digits then none
  else (s.take digits).foldlM (fun n c => (Text.hexDigit? c).map (16 * n + ·)) 0

/-! ## Cursors

A place in a text is what is left of it, with the number of characters before it, the line and the
column. A cursor moves over characters of one line or over one break. -/

structure Cursor where
  rest : List Char
  index : Nat
  line : Nat
  column : Nat

namespace Cursor

def ofText (text : List Char) : Cursor := ⟨text, 0, 0, 0⟩

def skip (c : Cursor) (n : Nat) : Cursor :=
  { c with rest := c.rest.drop n, index := c.index + n, column := c.column + n }

def nextLine (c : Cursor) : Cursor :=
  match breakAt c.rest with
  | some (_, n) => ⟨c.rest.drop n, c.index + n, c.line + 1, 0⟩
  | none => c

def run (c : Cursor) (p : Char → Bool) : List Char × Cursor :=
  let taken := c.rest.takeWhile p
  (taken, c.skip taken.length)

def skipBlanks (c : Cursor) : Cursor := (c.run isBlank).2

def skipMark (c : Cursor) : Cursor :=
  if c.column = 0 ∧ c.rest.head? = some '\ufeff' then c.skip 1 else c

def skipComment (c : Cursor) : Cursor :=
  if c.rest.head? = some '#' then (c.run fun x => !isBreak x).2 else c

/-- Moves over what may follow on a line: blanks, a comment and the break. Fails at other text. -/
def finishLine (c : Cursor) : Option Cursor :=
  let c := c.skipBlanks.skipComment
  if c.rest.head?.all isBreak then some c.nextLine else none

def startsWith (c : Cursor) (mark : String) : Bool := mark.toList.isPrefixOf c.rest

/-- A marker of a document's start or end: three characters at the start of a line, then a gap. -/
def atMarker (c : Cursor) (mark : String) : Bool :=
  c.column = 0 && c.startsWith mark && gapAt (c.rest.drop 3)

def atAnyMarker (c : Cursor) : Bool := c.atMarker "---" || c.atMarker "..."

end Cursor

/-! ## Gaps inside scalars

A gap within a line is kept, a single break becomes a space, and of more breaks the first is
dropped. Line and paragraph separators are never dropped. -/

structure Gap where
  /-- The blanks before the first break. -/
  blanks : List Char
  /-- Each break with the blanks that follow it. -/
  breaks : List (Char × List Char)

namespace Gap

def none : Gap := ⟨[], []⟩

def readBreaks : Nat → Cursor → List (Char × List Char) × Cursor
  | 0, c => ([], c)
  | n + 1, c =>
    match breakAt c.rest with
    | Option.none => ([], c)
    | some (b, _) =>
      let (blanks, c) := c.nextLine.run isBlank
      let (more, c) := readBreaks n c
      ((b, blanks) :: more, c)

def read (c : Cursor) : Gap × Cursor :=
  let (blanks, c) := c.run isBlank
  let (breaks, c) := readBreaks c.rest.length c
  (⟨blanks, breaks⟩, c)

def spansLines (g : Gap) : Bool := !g.breaks.isEmpty

def fold (g : Gap) : List Char :=
  match g.breaks.map Prod.fst with
  | [] => g.blanks
  | ['\n'] => [' ']
  | '\n' :: more => more
  | breaks => breaks

def hasTabWithin (g : Gap) (indent : Nat) : Bool :=
  g.breaks.any fun b => '\t' ∈ b.2.take indent

end Gap

end DeclForest.Yaml
