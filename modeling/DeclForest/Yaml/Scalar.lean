import DeclForest.Yaml.Cursor

/-!
The scalars of YAML: plain, quoted and in blocks. A plain one ends before a colon that a gap
follows, before a number sign behind a gap, at a line that is indented too little or is a marker,
and inside brackets also at their punctuation.
-/

namespace DeclForest.Yaml.Plain

def startsAt (inFlow : Bool) (s : List Char) : Bool :=
  match s with
  | [] => false
  | '-' :: rest => !rest.head?.any isBlank
  | '?' :: rest | ':' :: rest => !inFlow && !gapAt rest
  | _ => !gapAt s && !startsIn indicators s

def chunk (inFlow : Bool) : List Char → Option (List Char)
  | [] => some []
  | c :: rest =>
    if isGap c then some []
    else if inFlow && c = ':' && startsIn ",?[]{}" rest then none
    else if c = ':' && gapAt rest then some []
    else if inFlow && startsIn flowIndicators [c] then some []
    else (chunk inFlow rest).map (c :: ·)

structure Result where
  text : List Char
  cursor : Cursor
  brokeLine : Bool

/-- Reads on behind a gap. Lines must be indented by at least `indent` outside of brackets. -/
def readFrom (inFlow : Bool) (indent : Nat) : Nat → Gap → Cursor → List Char → Option Result
  | 0, _, _, _ => none
  | n + 1, gap, c, text =>
    if c.atAnyMarker || c.rest.head? = some '#' then some ⟨text, c, gap.spansLines⟩
    else do
      let chunk ← chunk inFlow c.rest
      if chunk.isEmpty then return ⟨text, c, gap.spansLines⟩
      let text := text ++ gap.fold ++ chunk
      let c := c.skip chunk.length
      if !c.rest.head?.any isGap then return ⟨text, c, false⟩
      let (gap, c) := Gap.read c
      if gap.hasTabWithin indent then none
      else if !inFlow && c.column < indent then return ⟨text, c, gap.spansLines⟩
      else readFrom inFlow indent n gap c text

def read (inFlow : Bool) (indent : Nat) (c : Cursor) : Option Result :=
  readFrom inFlow indent (c.rest.length + 1) .none c []

end DeclForest.Yaml.Plain

/-! ## Quoted scalars

Between single quotes only a doubled quote is special; between double quotes a backslash escapes a
character, a character number or a break. Gaps fold in both. -/

namespace DeclForest.Yaml.Quoted

def short? : Char → Option Char
  | '0' => some '\x00'
  | 'a' => some '\x07'
  | 'b' => some '\x08'
  | 't' | '\t' => some '\t'
  | 'n' => some '\n'
  | 'v' => some '\x0b'
  | 'f' => some '\x0c'
  | 'r' => some '\r'
  | 'e' => some '\x1b'
  | ' ' => some ' '
  | '"' => some '"'
  | '/' => some '/'
  | '\\' => some '\\'
  | 'N' => some '\u0085'
  | '_' => some '\u00a0'
  | 'L' => some '\u2028'
  | 'P' => some '\u2029'
  | _ => none

def digits? : Char → Option Nat
  | 'x' => some 2
  | 'u' => some 4
  | 'U' => some 8
  | _ => none

def ofNumber? (n : Nat) : Option Char := if n.isValidChar then some (Char.ofNat n) else none

def escape? : List Char → Option (Char × Nat)
  | [] => none
  | c :: rest =>
    match digits? c with
    | some digits => ((hexValue? digits rest).bind ofNumber?).map (·, digits + 1)
    | none => (short? c).map (·, 1)

def afterEscapedBreak (c : Cursor) : List Char × Cursor :=
  let (gap, c) := Gap.read c
  (gap.breaks.map Prod.fst, c)

def readFrom (quote : Char) : Nat → Cursor → List Char → Option (List Char × Cursor)
  | 0, _, _ => none
  | n + 1, c, text =>
    match c.rest with
    | [] => none
    | x :: rest =>
      if isGap x then
        let (gap, c) := Gap.read c
        if c.atAnyMarker then none else readFrom quote n c (gap.fold.reverse ++ text)
      else if x = quote then
        if quote = '\'' ∧ rest.head? = some '\'' then readFrom quote n (c.skip 2) ('\'' :: text)
        else some (text.reverse, c.skip 1)
      else if quote = '"' ∧ x = '\\' then
        if rest.head?.any isBreak then
          let (breaks, c) := afterEscapedBreak (c.skip 1).nextLine
          if c.atAnyMarker then none else readFrom quote n c (breaks.reverse ++ text)
        else
          match escape? rest with
          | some (e, length) => readFrom quote n (c.skip (length + 1)) (e :: text)
          | none => none
      else readFrom quote n (c.skip 1) (x :: text)

def read (quote : Char) (c : Cursor) : Option (List Char × Cursor) :=
  readFrom quote c.rest.length (c.skip 1) []

end DeclForest.Yaml.Quoted

/-! ## Block scalars

Literal ones keep their breaks, folded ones join lines that are not indented further. The header may
say how deep the text is indented and what becomes of the breaks at its end. -/

namespace DeclForest.Yaml.Block

inductive Chomping where
  | strip | clip | keep
  deriving DecidableEq

structure Header where
  chomping : Chomping
  /-- The stated indentation, zero if it is to be found out. -/
  indent : Nat

def chomping? : List Char → Option Chomping
  | '+' :: _ => some .keep
  | '-' :: _ => some .strip
  | _ => none

def indent? (s : List Char) : Option Nat :=
  match s.head? with
  | some c =>
    if c = '0' then none else some (if c.isDigit then c.toNat - '0'.toNat else 0)
  | none => some 0

def readHeader (c : Cursor) : Option (Header × Cursor) := do
  match chomping? c.rest with
  | some chomping =>
    let indent ← indent? (c.rest.drop 1)
    let c ← (c.skip (if indent = 0 then 1 else 2)).finishLine
    return (⟨chomping, indent⟩, c)
  | none =>
    let indent ← indent? c.rest
    let c := c.skip (if indent = 0 then 0 else 1)
    match chomping? c.rest with
    | some chomping => return (⟨chomping, indent⟩, ← (c.skip 1).finishLine)
    | none => return (⟨.clip, indent⟩, ← c.finishLine)

/-- Empty lines: their breaks, the deepest indentation met, and the place behind. A limit of zero
takes all spaces for indentation. -/
def readEmpty (limit : Nat) : Nat → Cursor → Nat → Option (List Char × Nat × Cursor)
  | 0, c, deepest => some ([], deepest, c)
  | n + 1, c, deepest =>
    let spaces := c.rest.takeWhile (· = ' ')
    let c := c.skip (if limit = 0 then spaces.length else min spaces.length (limit - c.column))
    let deepest := max deepest c.column
    if (limit = 0 || c.column < limit) && c.rest.head? = some '\t' then none
    else
      match breakAt c.rest with
      | none => some ([], deepest, c)
      | some (b, _) => do
        let (more, deepest, c) ← readEmpty limit n c.nextLine deepest
        return (b :: more, deepest, c)

/-- The text so far, the break of its last line and the empty lines since, and whether that line
started with a blank. -/
structure Progress where
  text : List Char
  lineBreak : List Char
  emptyLines : List Char
  blankStart : Bool

def join (literal : Bool) (p : Progress) (blankStart : Bool) : List Char :=
  let head :=
    if !literal && p.lineBreak = ['\n'] && !p.blankStart && !blankStart then
      if p.emptyLines.isEmpty then [' '] else []
    else p.lineBreak
  p.text ++ head ++ p.emptyLines

def readLines (literal : Bool) (indent : Nat) :
    Nat → Cursor → Progress → Option (Progress × Cursor)
  | 0, _, _ => none
  | n + 1, c, p =>
    if c.column ≠ indent ∨ c.rest = [] then some (p, c)
    else do
      let blankStart := c.rest.head?.any isBlank
      let text := join literal p blankStart
      let (line, c) := c.run fun x => !isBreak x
      let lineBreak := ((breakAt c.rest).map Prod.fst).toList
      let (emptyLines, _, c) ← readEmpty indent c.nextLine.rest.length c.nextLine 0
      readLines literal indent n c ⟨text ++ line, lineBreak, emptyLines, blankStart⟩

def chomp (chomping : Chomping) (p : Progress) : List Char :=
  match chomping with
  | .strip => p.text
  | .clip => p.text ++ p.lineBreak
  | .keep => p.text ++ p.lineBreak ++ p.emptyLines

/-- Reads the scalar whose indicator is next. `outer` is the least indentation of its text: one more
than that of what is around it. -/
def read (literal : Bool) (outer : Nat) (c : Cursor) : Option (List Char × Cursor) := do
  let (header, c) ← readHeader (c.skip 1)
  let stated := if header.indent = 0 then 0 else outer - 1 + header.indent
  let (emptyLines, deepest, c) ← readEmpty stated (c.rest.length + 1) c 0
  let indent := if stated = 0 then max (max deepest outer) 1 else stated
  let (p, c) ← readLines literal indent (c.rest.length + 1) c ⟨[], [], emptyLines, false⟩
  return (chomp header.chomping p, c)

end DeclForest.Yaml.Block
