import DeclForest.Catalog.Basic
import DeclForest.Json.Token

/-!
JSON values, how they are read from tokens, and the JSON text of an outline. Reading keeps a stack
of the brackets that are open and what may come next; each token makes one step, so that reading is
a fold as well.
-/

namespace DeclForest.Json

/-- Fields keep their order and may repeat; a key is absent like the content of a string. -/
inductive Value where
  | null
  | boolean (value : Bool)
  | number (literal : List Char)
  | text (content : Option String)
  | list (items : List Value)
  | object (fields : List (Option String × Value))
  deriving Repr

inductive Frame where
  | list (items : List Value)
  | object (fields : List (Option String × Value))
  /-- An object whose last key still wants its value. -/
  | field (fields : List (Option String × Value)) (key : Option String)

inductive Expect where
  | value | itemOrClose | key | keyOrClose | colon | afterValue
  deriving DecidableEq

structure Reading where
  frames : List Frame
  expect : Expect
  result : Option Value

namespace Reading

def initial : Reading := ⟨[], .value, none⟩

def put (v : Value) : List Frame → Option Reading
  | [] => some ⟨[], .afterValue, some v⟩
  | .list items :: frames => some ⟨.list (v :: items) :: frames, .afterValue, none⟩
  | .field fields key :: frames =>
    some ⟨.object ((key, v) :: fields) :: frames, .afterValue, none⟩
  | .object _ :: _ => none

def startValue (frames : List Frame) : Token → Option Reading
  | .null => put .null frames
  | .boolean b => put (.boolean b) frames
  | .number literal => put (.number literal) frames
  | .text content => put (.text content) frames
  | .openList => some ⟨.list [] :: frames, .itemOrClose, none⟩
  | .openObject => some ⟨.object [] :: frames, .keyOrClose, none⟩
  | _ => none

def close : List Frame → Token → Option Reading
  | .list items :: frames, .closeList => put (.list items.reverse) frames
  | .object fields :: frames, .closeObject => put (.object fields.reverse) frames
  | _, _ => none

def startKey : List Frame → Token → Option Reading
  | .object fields :: frames, .text key => some ⟨.field fields key :: frames, .colon, none⟩
  | _, _ => none

def step (r : Reading) (t : Token) : Option Reading :=
  match r.expect with
  | .value => startValue r.frames t
  | .itemOrClose => if t = .closeList then close r.frames t else startValue r.frames t
  | .key => startKey r.frames t
  | .keyOrClose => if t = .closeObject then close r.frames t else startKey r.frames t
  | .colon => if t = .colon then some { r with expect := .value } else none
  | .afterValue =>
    if t = .comma then
      match r.frames with
      | [] => none
      | .list _ :: _ => some { r with expect := .value }
      | _ => some { r with expect := .key }
    else close r.frames t

def run (r : Reading) : List Token → Option Reading
  | [] => some r
  | t :: rest => (r.step t).bind fun next => next.run rest

end Reading

namespace Value

def ofTokens? (tokens : List Token) : Option Value :=
  match Reading.initial.run tokens with
  | some ⟨[], _, some v⟩ => some v
  | _ => none

def ofText? (text : String) : Option Value := (tokens? text.toList).bind ofTokens?

end Value

/-! ## Writing

Two spaces a level, each item and field on a line of its own, a space after the colon, and `[]` for
a list without items. -/

def escape (c : Char) : List Char :=
  if c = '"' then ['\\', '"']
  else if c = '\\' then ['\\', '\\']
  else if c = '\x08' then ['\\', 'b']
  else if c = '\x0c' then ['\\', 'f']
  else if c = '\n' then ['\\', 'n']
  else if c = '\r' then ['\\', 'r']
  else if c = '\t' then ['\\', 't']
  else if c.toNat < 0x20 then '\\' :: 'u' :: Text.hex 4 c.toNat
  else [c]

def quoted (s : String) : List Char := '"' :: s.toList.flatMap escape ++ ['"']

def newline (level : Nat) : List Char := '\n' :: List.replicate (2 * level) ' '

mutual

def write (level : Nat) : Outline → List Char
  | .text content => quoted content
  | .list [] => ['[', ']']
  | .list (item :: items) =>
    '[' :: newline (level + 1) ++ write (level + 1) item ++ writeItems (level + 1) items ++
      newline level ++ [']']
  | .record [] => ['{', '}']
  | .record ((key, value) :: fields) =>
    '{' :: newline (level + 1) ++ quoted key ++ [':', ' '] ++ write (level + 1) value ++
      writeFields (level + 1) fields ++ newline level ++ ['}']

def writeItems (level : Nat) : List Outline → List Char
  | [] => []
  | item :: items => ',' :: newline level ++ write level item ++ writeItems level items

def writeFields (level : Nat) : List (String × Outline) → List Char
  | [] => []
  | (key, value) :: fields =>
    ',' :: newline level ++ quoted key ++ [':', ' '] ++ write level value ++
      writeFields level fields

end

end DeclForest.Json
