import DeclForest.Catalog.Decode
import DeclForest.Json.Value

/-!
Catalogs as JSON. A record is an object, or the list of its fields in order with fields left out at
the end; a kind is a string, or an object with that one key and the value null. Half surrogate pairs
are refused wherever a text is wanted, as the keys of a record are.
-/

namespace DeclForest

namespace Json.Value

def text? : Value → Option String
  | text content => content
  | _ => none

def only? (fields : List (String × Value)) (key : String) : Option (Option Value) :=
  match fields.filter fun field => field.1 == key with
  | [] => some none
  | [field] => some (some field.2)
  | _ => none

def named? (field : Option String × Value) : Option (String × Value) :=
  field.1.map (·, field.2)

def record? (keys : List String) : Value → Option (List (Option Value))
  | object fields => (fields.mapM named?).bind fun named => keys.mapM (only? named)
  | list items =>
    if items.length ≤ keys.length then
      some (items.map some ++ List.replicate (keys.length - items.length) none)
    else none
  | _ => none

def word? (n : Nat) : Value → Option String
  | text content => content
  | object [(some word, null)] => if n = 0 then none else some word
  | _ => none

end Json.Value

namespace Catalog

def jsonDepth : Nat := 127

def jsonFormat : Format Json.Value Option where
  refuse := none
  record n keys v := if n = 0 then none else v.record? keys
  list n v :=
    match v with
    | .list items => if n = 0 then none else some items
    | _ => none
  text := Json.Value.text?
  word := Json.Value.word?
  optional v :=
    match v with
    | .null => some none
    | v => some (some v)

def ofJson (text : String) : Except Fault Catalog :=
  match (Json.Value.ofText? text).bind (ofNode jsonFormat jsonDepth) with
  | some c => .ok c
  | none => .error (.catalog "the text is not a catalog in JSON")

def toJson (c : Catalog) : String := String.ofList (Json.write 0 (.record c.fields))

end Catalog

def Modifiers.ofJson? (text : String) : Option Modifiers :=
  ((Json.Value.ofText? text).bind Json.Value.text?).bind fun s => ofSpelling? s.toList

end DeclForest
