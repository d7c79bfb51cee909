import DeclForest.Yaml.Scalar
import DeclForest.Yaml.Token

/-!
How tokens are found. A scan knows the columns of the open block collections and, for each open
bracket, the place of the last token that may turn out to be a key: a colon on the same line, not
too far behind it, makes it one. Each step adds the tokens that start at the next character.
-/

namespace DeclForest.Yaml

structure KeyCandidate where
  position : Nat
  /-- Whether nothing but a key can stand there. -/
  required : Bool
  index : Nat
  line : Nat
  column : Nat

structure Scan where
  cursor : Cursor
  tokens : List Token
  indents : List Nat
  /-- The candidate of the innermost bracket, or outside of brackets. -/
  candidate : Option KeyCandidate
  /-- The candidates around it, one for each open bracket. -/
  outer : List (Option KeyCandidate)
  keyAllowed : Bool

namespace Scan

def start (text : List Char) : Scan := ⟨.ofText text, [], [], none, [], true⟩

def inFlow (s : Scan) : Bool := !s.outer.isEmpty

def floor (s : Scan) : Nat := (s.indents.head?.map (· + 1)).getD 0

def push (s : Scan) (t : Token) : Scan := { s with tokens := t :: s.tokens }

def insertAt (s : Scan) (position : Nat) (t : Token) : Scan :=
  let later := s.tokens.length - position
  { s with tokens := s.tokens.take later ++ t :: s.tokens.drop later }

/-- Moves to the next token, over spaces, comments and breaks. Tabs count as spaces where no key
may start. A byte order mark may start a line; it takes a column. A break outside of brackets lets a
key start. -/
def gapFrom (flow : Bool) : Nat → Cursor → Bool → Cursor × Bool
  | 0, c, allowed => (c, allowed)
  | n + 1, c, allowed =>
    let c := (c.skipMark.run fun x => x = ' ' || x = '\t' && (flow || !allowed)).2.skipComment
    if c.rest.head?.any isBreak then gapFrom flow n c.nextLine (allowed || !flow)
    else (c, allowed)

def toNext (s : Scan) : Scan :=
  let (cursor, keyAllowed) :=
    gapFrom s.inFlow (s.cursor.rest.length + 1) s.cursor s.keyAllowed
  { s with cursor, keyAllowed }

def giveUp : Option KeyCandidate → Option (Option KeyCandidate)
  | some k => if k.required then none else some none
  | none => some none

def dropCandidate (s : Scan) : Option Scan := do
  return { s with candidate := ← giveUp s.candidate }

/-- A key may not extend over lines nor over more than 1024 characters. -/
def isStale (c : Cursor) (k : KeyCandidate) : Bool :=
  k.line < c.line || k.index + 1024 < c.index

def refresh (c : Cursor) (k : Option KeyCandidate) : Option (Option KeyCandidate) :=
  if k.any (isStale c) then giveUp k else some k

def dropStale (s : Scan) : Option Scan := do
  return { s with
    candidate := ← refresh s.cursor s.candidate
    outer := ← s.outer.mapM (refresh s.cursor) }

def saveCandidate (s : Scan) : Option Scan :=
  if s.keyAllowed then do
    let s ← s.dropCandidate
    let required := !s.inFlow && s.indents.head? = some s.cursor.column
    let c := s.cursor
    return { s with candidate := some ⟨s.tokens.length, required, c.index, c.line, c.column⟩ }
  else some s

def unroll (s : Scan) (column : Nat) : Scan :=
  if s.inFlow then s
  else
    let closed := s.indents.takeWhile (column ≤ ·)
    { s with
      tokens := closed.map (fun _ => .blockEnd) ++ s.tokens
      indents := s.indents.drop closed.length }

def roll (s : Scan) (column position : Nat) (t : Token) : Scan :=
  if !s.inFlow && s.floor ≤ column then
    { s.insertAt position t with indents := column :: s.indents }
  else s

def skip (s : Scan) (n : Nat) : Scan := { s with cursor := s.cursor.skip n }

def mark (s : Scan) (collection t : Token) (keyAllowed : Bool) : Option Scan :=
  if !s.inFlow && !s.keyAllowed then none
  else do
    let s ← (s.roll s.cursor.column s.tokens.length collection).dropCandidate
    return { (s.push t).skip 1 with keyAllowed }

def valueMark (s : Scan) : Option Scan :=
  match s.candidate with
  | some k =>
    let s := (s.insertAt k.position .key).roll k.column k.position .blockMapping
    some { (s.push .value).skip 1 with candidate := none, keyAllowed := false }
  | none =>
    if !s.inFlow && !s.keyAllowed then none
    else
      let s := s.roll s.cursor.column s.tokens.length .blockMapping
      some { (s.push .value).skip 1 with keyAllowed := !s.inFlow }

def openBracket (s : Scan) (t : Token) : Option Scan := do
  let s ← s.saveCandidate
  return { (s.push t).skip 1 with
    candidate := none, outer := s.candidate :: s.outer, keyAllowed := true }

/-- Closes a bracket. One that was never opened shows in the tokens. -/
def closeBracket (s : Scan) (t : Token) : Option Scan := do
  let s ← s.dropCandidate
  let s := { (s.push t).skip 1 with keyAllowed := false }
  match s.outer with
  | [] => return s
  | candidate :: outer => return { s with candidate, outer }

def comma (s : Scan) : Option Scan := do
  let s ← s.dropCandidate
  return { (s.push .comma).skip 1 with keyAllowed := true }

def marker (s : Scan) (t : Token) : Option Scan := do
  let s ← (s.unroll 0).dropCandidate
  return { (s.push t).skip 3 with keyAllowed := false }

def directive (s : Scan) : Option Scan := do
  let s ← (s.unroll 0).dropCandidate
  let (d, cursor) ← Directive.read s.cursor
  return { s.push (.directive d) with cursor, keyAllowed := false }

def readName (c : Cursor) : Option (String × Cursor) :=
  let (name, c) := (c.skip 1).run isNameChar
  if !name.isEmpty && (gapAt c.rest || startsIn r"?:,]}%@`" c.rest) then
    some (String.ofList name, c)
  else none

def nodeToken (s : Scan) (read : Cursor → Option (Token × Cursor)) : Option Scan := do
  let s ← s.saveCandidate
  let (t, cursor) ← read s.cursor
  return { s.push t with cursor, keyAllowed := false }

def quoted (quote : Char) (c : Cursor) : Option (Token × Cursor) :=
  (Quoted.read quote c).map fun (text, c) => (.scalar false (String.ofList text), c)

def blockScalar (s : Scan) (literal : Bool) : Option Scan := do
  let s ← s.dropCandidate
  let (text, cursor) ← Block.read literal s.floor s.cursor
  return { s.push (.scalar false (String.ofList text)) with cursor, keyAllowed := true }

def plain (s : Scan) : Option Scan := do
  let s ← s.saveCandidate
  let scalar ← Plain.read s.inFlow s.floor s.cursor
  return { s.push (.scalar true (String.ofList scalar.text)) with
    cursor := scalar.cursor, keyAllowed := scalar.brokeLine }

def token (s : Scan) : Option Scan :=
  let c := s.cursor
  let spaced := gapAt (c.rest.drop 1)
  if c.column = 0 && c.startsWith "%" then s.directive
  else if c.atMarker "---" then s.marker .documentStart
  else if c.atMarker "..." then s.marker .documentEnd
  else
    match c.rest.head? with
    | some '[' => s.openBracket .openSequence
    | some '{' => s.openBracket .openMapping
    | some ']' => s.closeBracket .closeSequence
    | some '}' => s.closeBracket .closeMapping
    | some ',' => s.comma
    | some '*' => s.nodeToken fun c => (readName c).map fun (name, c) => (.alias name, c)
    | some '&' => s.nodeToken fun c => (readName c).map fun (name, c) => (.anchor name, c)
    | some '!' => s.nodeToken fun c => (Tag.read s.inFlow c).map fun (tag, c) => (.tag tag, c)
    | some '\'' => s.nodeToken (quoted '\'')
    | some '"' => s.nodeToken (quoted '"')
    | some x =>
      if x = '-' && spaced then s.mark .blockSequence .entry true
      else if x = '?' && (s.inFlow || spaced) then s.mark .blockMapping .key (!s.inFlow)
      else if x = ':' && (s.inFlow || spaced) then s.valueMark
      else if x = '|' && !s.inFlow then s.blockScalar true
      else if x = '>' && !s.inFlow then s.blockScalar false
      else if Plain.startsAt s.inFlow c.rest then s.plain
      else none
    | none => none

def finish (s : Scan) : Option (List Token) :=
  ((s.unroll 0).dropCandidate).map Scan.tokens

def run : Nat → Scan → Option (List Token)
  | 0, _ => none
  | n + 1, s => do
    let s ← s.toNext.dropStale
    let s := s.unroll (s.cursor.column + 1)
    if s.cursor.rest = [] then s.finish else run n (← s.token)

end Scan

namespace Token

def ofText? (text : List Char) : Option (List Token) :=
  if text.all isAllowed then ((Scan.start text).run (text.length + 1)).map List.reverse else none

end Token

end DeclForest.Yaml
