import DeclForest.Yaml.Cursor

/-!
The tokens of YAML, with the tags and directives that some of them hold. A tag is written in full
between angle brackets, or as a suffix behind a handle that a directive may define. Tags are kept as
octets, because their percent escapes give octets.
-/

namespace DeclForest.Yaml

abbrev Octets := List UInt8

def Octets.ofString (s : String) : Octets := s.toList.map fun c => c.toNat.toUInt8

namespace Tag

/-- The punctuation of tags; the last three characters only count where the end is marked. -/
def isUriChar (full : Bool) (c : Char) : Bool :=
  isNameChar c || c ∈ ";/?:@&=+$.%!~*'()".toList || full && c ∈ ",[]".toList

def octet? : List Char → Option Nat
  | '%' :: digits => hexValue? 2 digits
  | _ => none

def width? (octet : Nat) : Option Nat :=
  if octet < 0x80 then some 1
  else if 0xC0 ≤ octet ∧ octet < 0xE0 then some 2
  else if 0xE0 ≤ octet ∧ octet < 0xF0 then some 3
  else if 0xF0 ≤ octet ∧ octet < 0xF8 then some 4
  else none

/-- Reads a URI with `pending` octets of a character still to come. -/
def readUriFrom (full : Bool) : Nat → Nat → Cursor → Octets → Option (Octets × Cursor)
  | 0, pending, c, uri => if pending = 0 then some (uri.reverse, c) else none
  | n + 1, pending, c, uri => do
    if c.rest.head? = some '%' then
      let octet ← octet? c.rest
      let pending ←
        if pending = 0 then (width? octet).map (· - 1)
        else if 0x80 ≤ octet ∧ octet < 0xC0 then some (pending - 1) else none
      readUriFrom full n pending (c.skip 3) (octet.toUInt8 :: uri)
    else if pending ≠ 0 then none
    else
      match c.rest.head? with
      | some x =>
        if isUriChar full x then readUriFrom full n 0 (c.skip 1) (x.toNat.toUInt8 :: uri)
        else return (uri.reverse, c)
      | none => return (uri.reverse, c)

/-- A URI counts up to an octet of value zero. -/
def readUri (full : Bool) (c : Cursor) : Option (Octets × Cursor) :=
  (readUriFrom full c.rest.length 0 c []).map fun (uri, c) => (uri.takeWhile (· ≠ 0), c)

def readHandle (c : Cursor) : Option (List Char × Cursor) :=
  if c.rest.head? ≠ some '!' then none
  else
    let (name, c) := (c.skip 1).run isNameChar
    if c.rest.head? = some '!' then some ('!' :: name ++ ['!'], c.skip 1)
    else some ('!' :: name, c)

structure Written where
  handle : String
  suffix : Octets
  deriving DecidableEq, Repr

/-- A handle with two marks has a suffix. A single mark on its own is a tag in full. -/
def readWritten (c : Cursor) : Option (Written × Cursor) := do
  if c.startsWith "!<" then
    let (uri, after) ← readUri true (c.skip 2)
    if after.rest.head? = some '>' ∧ (c.skip 2).rest.head?.any (isUriChar true) then
      return (⟨"", uri⟩, after.skip 1)
    else failure
  else
    let (handle, c) ← readHandle c
    let (uri, after) ← readUri false c
    if handle.length ≥ 2 ∧ handle.getLast? = some '!' then
      if c.rest.head?.any (isUriChar false) then return (⟨String.ofList handle, uri⟩, after)
      else failure
    else
      let suffix := Octets.ofString (String.ofList handle.tail) ++ uri
      return (if suffix.isEmpty then ⟨"", Octets.ofString "!"⟩ else ⟨"!", suffix⟩, after)

def read (inFlow : Bool) (c : Cursor) : Option (Written × Cursor) := do
  let (tag, c) ← readWritten c
  if gapAt c.rest ∨ inFlow ∧ c.rest.head? = some ',' then return (tag, c) else failure

end Tag

inductive Directive where
  /-- The version of the format, 1.1 or 1.2. -/
  | version
  | handle (name : String) (start : Octets)
  deriving DecidableEq, Repr

namespace Directive

def readNumber (c : Cursor) : Option (Nat × Cursor) :=
  let (digits, c) := c.run Char.isDigit
  if digits.isEmpty ∨ digits.length > 9 then none
  else some (digits.foldl (fun n d => 10 * n + (d.toNat - '0'.toNat)) 0, c)

def readVersion (c : Cursor) : Option (Directive × Cursor) := do
  let (major, c) ← readNumber c
  if c.rest.head? ≠ some '.' then failure
  let (minor, c) ← readNumber (c.skip 1)
  if major = 1 ∧ (minor = 1 ∨ minor = 2) then return (version, c) else failure

def readTag (c : Cursor) : Option (Directive × Cursor) := do
  let (name, c) ← Tag.readHandle c
  if name.getLast? ≠ some '!' ∨ !c.rest.head?.any isBlank then failure
  let c := c.skipBlanks
  let (start, after) ← Tag.readUri true c
  if c.rest.head?.any (Tag.isUriChar true) ∧ gapAt after.rest then
    return (handle (String.ofList name) start, after)
  else failure

def read (c : Cursor) : Option (Directive × Cursor) := do
  let (name, c) := (c.skip 1).run isNameChar
  if !gapAt c.rest then failure
  let (directive, c) ←
    if name = "YAML".toList then readVersion c.skipBlanks
    else if name = "TAG".toList then readTag c.skipBlanks
    else failure
  return (directive, ← c.finishLine)

end Directive

/-! ## Tokens

Indentation shows as tokens too: a block collection starts with one of its own and ends with
`blockEnd`. The key token stands before the node it marks, which may have been read first. -/

inductive Token where
  | directive (d : Directive)
  | documentStart | documentEnd
  | blockSequence | blockMapping | blockEnd
  | openSequence | closeSequence | openMapping | closeMapping
  | entry | comma | key | value
  | alias (name : String)
  | anchor (name : String)
  | tag (written : Tag.Written)
  | scalar (isPlain : Bool) (text : String)
  deriving DecidableEq, Repr

end DeclForest.Yaml
