import DeclForest.Catalog.Basic
import DeclForest.Yaml.Cursor

/-!
Outlines as YAML in block style. A sequence stands at the column of its key, a record two columns
further in. A text is written plain if it reads back as the same text, else in the first of the
other styles that can hold it: single quotes, or a literal block if it has line feeds, then double
quotes.

What would be read as nothing, a truth value or a number is no plain text. Integers have at most 128
bits, and a float is a number only if it is finite in double precision; digits with a superfluous
zero in front are kept apart as well.
-/

namespace DeclForest.Yaml.Resolve

def isNull (s : List Char) : Bool := s ∈ ["null", "Null", "NULL", "~"].map String.toList

def isBoolean (s : List Char) : Bool :=
  s ∈ ["true", "True", "TRUE", "false", "False", "FALSE"].map String.toList

def natural? (base : Nat) (s : List Char) : Option Nat :=
  if s.isEmpty then none
  else s.foldlM (fun n c => do
    let d ← Text.hexDigit? c
    if d < base then some (base * n + d) else none) 0

def based? : List Char → Option (Nat × List Char)
  | '0' :: 'x' :: digits => some (16, digits)
  | '0' :: 'o' :: digits => some (8, digits)
  | '0' :: 'b' :: digits => some (2, digits)
  | _ => none

def unsign (s : List Char) : List Char :=
  if s.head? = some '+' ∨ s.head? = some '-' then s.tail else s

def isZeroPadded (s : List Char) : Bool :=
  let digits := unsign s
  digits.length > 1 && digits.head? = some '0' && digits.all Char.isDigit

def isBelow (bound : Nat) (s : List Char) : Bool :=
  let based := match based? s with
    | some (base, digits) => (natural? base digits).any (· < bound)
    | none => false
  based || !isZeroPadded s && (natural? 10 s).any (· < bound)

def isInteger (s : List Char) : Bool :=
  match s with
  | '-' :: digits => isBelow (Nat.pow 2 127 + 1) digits
  | '+' :: digits => isBelow (Nat.pow 2 128) digits
  | digits => isBelow (Nat.pow 2 128) digits

structure Decimal where
  digits : Nat
  exponent : Int

def exponent? : List Char → Option Int
  | [] => some 0
  | c :: rest =>
    if c = 'e' ∨ c = 'E' then
      (natural? 10 (unsign rest)).map fun n =>
        if rest.head? = some '-' then -(n : Int) else n
    else none

def decimal? (s : List Char) : Option Decimal := do
  let whole := s.takeWhile Char.isDigit
  let rest := s.dropWhile Char.isDigit
  let (fraction, rest) :=
    match rest with
    | '.' :: rest => (rest.takeWhile Char.isDigit, rest.dropWhile Char.isDigit)
    | rest => ([], rest)
  let digits ← natural? 10 (whole ++ fraction)
  return ⟨digits, (← exponent? rest) - fraction.length⟩

/-- From here on a number rounds to infinity: half a unit above the largest double. -/
def infinityBound : Nat := Nat.pow 2 1024 - Nat.pow 2 970

/-- Decided by the number of digits first, so that no great power is taken. -/
def Decimal.isFinite (d : Decimal) : Bool :=
  let length : Int := (Nat.toDigits 10 d.digits).length
  d.digits = 0 || length + d.exponent ≤ 308 ||
    length + d.exponent ≤ 310 &&
      (if d.exponent < 0 then d.digits < infinityBound * Nat.pow 10 (-d.exponent).toNat
      else d.digits * Nat.pow 10 d.exponent.toNat < infinityBound)

def isFloat (s : List Char) : Bool :=
  let unsigned := unsign s
  unsigned ∈ [".inf", ".Inf", ".INF"].map String.toList ||
    s ∈ [".nan", ".NaN", ".NAN"].map String.toList ||
    (decimal? unsigned).any Decimal.isFinite

def isOther (s : List Char) : Bool :=
  s.isEmpty || isNull s || isBoolean s || isInteger s || isZeroPadded s || isFloat s

example : ["", "~", "True", "-0x1f", "0b10", "007", "+5", "1.5e3", ".5", "-.inf"].all
    (isOther ·.toList) = true := by decide +kernel
example : ["yes", "0x", "1_000", "1e400", "--1", "+-1", "-", "."].all
    (!isOther ·.toList) = true := by decide +kernel

end DeclForest.Yaml.Resolve

namespace DeclForest.Yaml

inductive Style where
  | plain | singleQuoted | doubleQuoted | literal
  deriving DecidableEq, Repr

namespace Style

def isPrintable (c : Char) : Bool :=
  isAllowed c && c ≠ '\t' && c ≠ '\r' && c ≠ '\u0085' && c ≠ '\ufeff'

def hasPair (first second : Char → Bool) : List Char → Bool
  | a :: b :: rest => first a && second b || hasPair first second (b :: rest)
  | _ => false

def isSpace (c : Char) : Bool := c = ' '

/-- Spaces before a break get lost except between double quotes, where others are escaped too. -/
def needsEscapes (s : List Char) : Bool :=
  !s.all isPrintable || hasPair isSpace isBreak s

def hasKeyMark : List Char → Bool
  | [] => false
  | c :: rest => c = ':' && gapAt rest || hasKeyMark rest

def hasIndicator (s : List Char) : Bool :=
  "---".toList.isPrefixOf s || "...".toList.isPrefixOf s ||
    startsIn indicators s ||
    startsIn "?-" s && gapAt s.tail ||
    hasKeyMark s ||
    hasPair isGap (· = '#') s

def atEitherEnd (p : Char → Bool) (s : List Char) : Bool := s.head?.any p || s.getLast?.any p

def allowsPlain (s : List Char) : Bool :=
  !needsEscapes s && !hasIndicator s && !s.any isBreak && !atEitherEnd isSpace s

def allowsSingleQuoted (s : List Char) : Bool :=
  !needsEscapes s && !hasPair isBreak isSpace s

def allowsLiteral (s : List Char) : Bool := !needsEscapes s && !s.getLast?.any isSpace

def quoted (s : List Char) : Style := if allowsSingleQuoted s then singleQuoted else doubleQuoted

def of (s : List Char) : Style :=
  if '\n' ∈ s then if allowsLiteral s then literal else doubleQuoted
  else if Resolve.isOther s || !allowsPlain s then quoted s
  else plain

end Style

def spaces (n : Nat) : List Char := List.replicate n ' '

def singleQuotedText (indent : Nat) : Bool → List Char → List Char
  | afterBreak, [] => if afterBreak then spaces indent else []
  | afterBreak, c :: rest =>
    let own := if c = '\'' then ['\'', '\''] else [c]
    if isBreak c then c :: singleQuotedText indent true rest
    else (if afterBreak then spaces indent else []) ++ own ++ singleQuotedText indent false rest

def upperHex (width n : Nat) : List Char := (Text.hex width n).map Char.toUpper

def escapeText (c : Char) : List Char :=
  match c with
  | '\x00' => ['\\', '0']
  | '\x07' => ['\\', 'a']
  | '\x08' => ['\\', 'b']
  | '\t' => ['\\', 't']
  | '\n' => ['\\', 'n']
  | '\x0b' => ['\\', 'v']
  | '\x0c' => ['\\', 'f']
  | '\r' => ['\\', 'r']
  | '\x1b' => ['\\', 'e']
  | '"' => ['\\', '"']
  | '\\' => ['\\', '\\']
  | '\u0085' => ['\\', 'N']
  | '\u2028' => ['\\', 'L']
  | '\u2029' => ['\\', 'P']
  | c =>
    if c.toNat ≤ 0xFF then '\\' :: 'x' :: upperHex 2 c.toNat
    else if c.toNat ≤ 0xFFFF then '\\' :: 'u' :: upperHex 4 c.toNat
    else '\\' :: 'U' :: upperHex 8 c.toNat

def doubleQuotedText (s : List Char) : List Char :=
  s.flatMap fun c =>
    if Style.isPrintable c && !isBreak c && c ≠ '"' && c ≠ '\\' then [c] else escapeText c

def literalText (indent : Nat) : Bool → List Char → List Char
  | _, [] => []
  | atStart, c :: rest =>
    if isBreak c then c :: literalText indent true rest
    else (if atStart then spaces indent else []) ++ c :: literalText indent false rest

/-- The header says the indentation if the text starts with a gap, and what its last breaks are. -/
def literalHeader (s : List Char) : List Char :=
  let indent := if s.head?.any fun c => c = ' ' || isBreak c then ['2'] else []
  let chomping :=
    match s.reverse with
    | [] => ['-']
    | [c] => if isBreak c then ['+'] else ['-']
    | c :: d :: _ => if !isBreak c then ['-'] else if isBreak d then ['+'] else []
  '|' :: indent ++ chomping

def scalarLine (indent : Nat) (s : List Char) : List Char :=
  match Style.of s with
  | .plain => s ++ ['\n']
  | .singleQuoted => '\'' :: singleQuotedText indent false s ++ ['\'', '\n']
  | .doubleQuoted => '"' :: doubleQuotedText s ++ ['"', '\n']
  | .literal =>
    let lines := literalHeader s ++ '\n' :: literalText indent true s
    if s.getLast?.any isBreak then lines else lines ++ ['\n']

mutual

def writeFields (column : Nat) : List (String × Outline) → List Char
  | [] => []
  | field :: fields => spaces column ++ writeField column field ++ writeFields column fields

/-- A key and its value, from behind the indentation on. Keys are plain words. -/
def writeField (column : Nat) : String × Outline → List Char
  | (key, value) => key.toList ++ ':' :: writeValue column value

def writeValue (column : Nat) : Outline → List Char
  | .text s => ' ' :: scalarLine (column + 2) s.toList
  | .list [] => " []\n".toList
  | .list items => '\n' :: writeItems column items
  | .record [] => " {}\n".toList
  | .record fields => '\n' :: writeFields (column + 2) fields

def writeItems (column : Nat) : List Outline → List Char
  | [] => []
  | item :: items => spaces column ++ '-' :: ' ' :: writeItem (column + 2) item ++
      writeItems column items

def writeItem (column : Nat) : Outline → List Char
  | .text s => scalarLine column s.toList
  | .list [] => "[]\n".toList
  | .list (item :: items) => '-' :: ' ' :: writeItem (column + 2) item ++ writeItems column items
  | .record [] => "{}\n".toList
  | .record (field :: fields) => writeField column field ++ writeFields column fields

end

def write (fields : List (String × Outline)) : List Char := writeFields 0 fields

end DeclForest.Yaml
