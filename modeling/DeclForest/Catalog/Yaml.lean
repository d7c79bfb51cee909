import DeclForest.Catalog.Decode
import DeclForest.Yaml.Document
import DeclForest.Yaml.Writer

/-!
Catalogs as YAML. A record is a mapping, a kind is a scalar or a tag, and a document that is empty
is the catalog of nothing. Any scalar is a text, however it is written; an empty plain one is also a
record or a list without anything in it. Each alias that is followed counts against the limit of the
document.
-/

namespace DeclForest.Yaml

abbrev Query := StateT Nat Option

namespace Document

def isNullWord (text : String) : Bool := text ∈ ["null", "Null", "NULL", "~"]

def follow (d : Document) : Node Nat → Query (Node Nat)
  | .alias number => do
    let followed ← get
    if d.aliasLimit ≤ followed then failure
    set (followed + 1)
    match d.anchored.lookup number with
    | some target => return target
    | none => failure
  | node => return node

def text (d : Document) (node : Node Nat) : Query String := do
  match ← d.follow node with
  | .scalar _ _ _ text => return text
  | _ => failure

def known (d : Document) (keys : List String) :
    List (Node Nat × Node Nat) → Query (List (String × Node Nat))
  | [] => return []
  | (key, value) :: pairs => do
    let key ← d.text key
    let rest ← d.known keys pairs
    return if key ∈ keys then (key, value) :: rest else rest

def record (d : Document) (n : Nat) (keys : List String) (node : Node Nat) :
    Query (List (Option (Node Nat))) := do
  match ← d.follow node with
  | .mapping _ _ pairs =>
    if n = 0 then failure
    let found ← d.known keys pairs
    if (found.map Prod.fst).Nodup then return keys.map fun key => found.lookup key else failure
  | .scalar _ _ true "" => return keys.map fun _ => none
  | _ => failure

def list (d : Document) (n : Nat) (node : Node Nat) : Query (List (Node Nat)) := do
  match ← d.follow node with
  | .sequence _ _ items => if n = 0 then failure else return items
  | .scalar _ _ true "" => return []
  | _ => failure

/-- The word of a tag that is not of a common scheme: its text behind the exclamation mark. -/
def tagWord? (tag : Octets) : Option String :=
  match tag with
  | 0x21 :: word => String.fromUTF8? ⟨word.toArray⟩
  | _ => none

def word (d : Document) (node : Node Nat) : Query String := do
  match ← d.follow node with
  | .scalar _ tag isPlain text =>
    match tag.bind tagWord? with
    | some word => if isPlain && (text.isEmpty || isNullWord text) then return word else failure
    | none => return text
  | _ => failure

def nullTag : Octets := .ofString "tag:yaml.org,2002:null"

/-- None for a plain scalar without a tag that is empty or a word for null. With the tag of null it
has to be such a word, and with another tag it stands for itself. -/
def optional (d : Document) (node : Node Nat) : Query (Option (Node Nat)) := do
  match ← d.follow node with
  | .scalar anchor tag true text =>
    match tag with
    | none =>
      if text.isEmpty || isNullWord text then return none
      else return some (.scalar anchor tag true text)
    | some tag =>
      if tag ≠ nullTag then return some (.scalar anchor tag true text)
      else if isNullWord text then return none
      else failure
  | node => return some node

def format (d : Document) : Catalog.Format (Node Nat) Query where
  refuse := failure
  record := d.record
  list := d.list
  text := d.text
  word _ := d.word
  optional := d.optional

end Document

end DeclForest.Yaml

namespace DeclForest.Catalog

def yamlDepth : Nat := 128

def ofYaml (text : String) : Except Fault Catalog :=
  match (Yaml.Document.ofText? text).bind fun d => (ofNode d.format yamlDepth d.root).run' 0 with
  | some c => .ok c
  | none => .error (.catalog "the text is not a catalog in YAML")

def toYaml (c : Catalog) : String := String.ofList (Yaml.write c.fields)

end DeclForest.Catalog
