import DeclForest.Text

/-!
The tokens of a JSON text, found one character at a time. A number literal is an optional minus
sign, digits without a superfluous zero in front, then an optional fraction and an optional
exponent.
-/

namespace DeclForest.Json

def isDigit (c : Char) : Bool := '0' ≤ c && c ≤ '9'

def isExponent : List Char → Bool
  | [] => true
  | c :: rest =>
    let digits := if rest.head? = some '+' ∨ rest.head? = some '-' then rest.tail else rest
    (c = 'e' || c = 'E') && !digits.isEmpty && digits.all isDigit

def isFraction : List Char → Bool
  | '.' :: rest => !(rest.takeWhile isDigit).isEmpty && isExponent (rest.dropWhile isDigit)
  | rest => isExponent rest

def isNumber (s : List Char) : Bool :=
  let unsigned := if s.head? = some '-' then s.tail else s
  let whole := unsigned.takeWhile isDigit
  (whole = ['0'] || !whole.isEmpty && whole.head? ≠ some '0') &&
    isFraction (unsigned.dropWhile isDigit)

example : ["0", "-0", "10", "1.50", "1e5", "-2.0E+07"].all (isNumber ·.toList) := by decide
example : ["", "-", "01", "1.", ".5", "1e", "1e+", "+1"].all (!isNumber ·.toList) := by decide

/-! ## Scanning

`Scan.step` says what a character does in each state and `Scan.finish` what the end of the text
does, so that scanning is a fold. -/

inductive Token where
  | openList | closeList | openObject | closeObject | comma | colon
  | null
  | boolean (value : Bool)
  | number (literal : List Char)
  /-- A string; its content is absent if an escape leaves half of a surrogate pair. -/
  | text (content : Option String)
  deriving DecidableEq, Repr

def isBlank (c : Char) : Bool := c = ' ' || c = '\t' || c = '\n' || c = '\r'

def isBare (c : Char) : Bool := c.isAlphanum || c = '-' || c = '+' || c = '.'

def bareToken? (s : List Char) : Option Token :=
  if s = "null".toList then some .null
  else if s = "true".toList then some (.boolean true)
  else if s = "false".toList then some (.boolean false)
  else if isNumber s then some (.number s)
  else none

inductive Piece where
  | char (c : Char)
  | unit (n : Nat)
  deriving DecidableEq, Repr

namespace Piece

def isHigh (n : Nat) : Bool := 0xD800 ≤ n && n < 0xDC00

def isLow (n : Nat) : Bool := 0xDC00 ≤ n && n < 0xE000

/-- The characters that the pieces stand for; two units make one character if they are a pair. -/
def assemble : List Piece → Option (List Char)
  | [] => some []
  | .char c :: rest => (assemble rest).map (c :: ·)
  | .unit hi :: .unit lo :: rest =>
    if isHigh hi && isLow lo then
      (assemble rest).map (Char.ofNat (0x10000 + (hi - 0xD800) * 0x400 + (lo - 0xDC00)) :: ·)
    else if isHigh hi || isLow hi then none
    else (assemble (.unit lo :: rest)).map (Char.ofNat hi :: ·)
  | .unit n :: rest =>
    if isHigh n || isLow n then none else (assemble rest).map (Char.ofNat n :: ·)

end Piece

def escaped? : Char → Option Char
  | '"' => some '"'
  | '\\' => some '\\'
  | '/' => some '/'
  | 'b' => some '\x08'
  | 'f' => some '\x0c'
  | 'n' => some '\n'
  | 'r' => some '\r'
  | 't' => some '\t'
  | _ => none

/-- Where the scan stands; what a state holds is in reverse. -/
inductive Scan where
  | between
  | bare (chars : List Char)
  | string (pieces : List Piece)
  | escape (pieces : List Piece)
  | code (pieces : List Piece) (left value : Nat)

namespace Scan

def start (c : Char) : Option (List Token × Scan) :=
  if isBlank c then some ([], between)
  else if isBare c then some ([], bare [c])
  else match c with
    | '[' => some ([.openList], between)
    | ']' => some ([.closeList], between)
    | '{' => some ([.openObject], between)
    | '}' => some ([.closeObject], between)
    | ',' => some ([.comma], between)
    | ':' => some ([.colon], between)
    | '"' => some ([], string [])
    | _ => none

/-- Control characters are refused in strings, the delete character apart. -/
def step : Scan → Char → Option (List Token × Scan)
  | between, c => start c
  | bare chars, c =>
    if isBare c then some ([], bare (c :: chars))
    else do
      let token ← bareToken? chars.reverse
      let (tokens, state) ← start c
      return (token :: tokens, state)
  | string pieces, c =>
    if c = '"' then some ([.text ((Piece.assemble pieces.reverse).map String.ofList)], between)
    else if c = '\\' then some ([], escape pieces)
    else if c.toNat < 0x20 then none
    else some ([], string (.char c :: pieces))
  | escape pieces, c =>
    if c = 'u' then some ([], code pieces 3 0)
    else (escaped? c).map fun e => ([], string (.char e :: pieces))
  | code pieces left value, c =>
    (Text.hexDigit? c).map fun d =>
      match left with
      | 0 => ([], string (.unit (16 * value + d) :: pieces))
      | left + 1 => ([], code pieces left (16 * value + d))

def finish : Scan → Option (List Token)
  | between => some []
  | bare chars => (bareToken? chars.reverse).map ([·])
  | _ => none

def run (state : Scan) : List Char → Option (List Token)
  | [] => state.finish
  | c :: rest => do
    let (tokens, next) ← state.step c
    return tokens ++ (← next.run rest)

end Scan

def tokens? (text : List Char) : Option (List Token) := Scan.between.run text

example : tokens? "[1 ,\"a\\u0062\"]".toList =
    some [.openList, .number ['1'], .comma, .text (some "ab"), .closeList] := by decide +kernel

end DeclForest.Json
