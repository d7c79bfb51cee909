import DeclForest.Yaml.Token

/-!
Nodes of a YAML document and how they are read from tokens. Nodes are labelled by the names of their
anchors at first. A node that is left out, as behind a colon with nothing after it, is an empty
plain scalar.
-/

namespace DeclForest.Yaml

/-- Nodes whose anchors are labelled by `α`; the octets are those of a tag. -/
inductive Node (α : Type) where
  | alias (label : α)
  | scalar (anchor : Option α) (tag : Option Octets) (isPlain : Bool) (text : String)
  | sequence (anchor : Option α) (tag : Option Octets) (items : List (Node α))
  | mapping (anchor : Option α) (tag : Option Octets) (pairs : List (Node α × Node α))
  deriving Repr

namespace Node

def empty {α : Type} : Node α := .scalar none none true ""

end Node

abbrev Handles := List (String × Octets)

namespace Handles

def standard : Handles := [("!", .ofString "!"), ("!!", .ofString "tag:yaml.org,2002:")]

def resolve? (handles : Handles) (tag : Tag.Written) : Option Octets :=
  if tag.handle.isEmpty then some tag.suffix
  else ((handles ++ standard).lookup tag.handle).map (· ++ tag.suffix)

end Handles

structure Properties where
  anchor : Option String
  tag : Option Octets

namespace Properties

def any (p : Properties) : Bool := p.anchor.isSome || p.tag.isSome

def read (handles : Handles) : List Token → Option (Properties × List Token)
  | .anchor a :: .tag t :: rest | .tag t :: .anchor a :: rest =>
    (handles.resolve? t).map fun tag => (⟨some a, some tag⟩, rest)
  | .anchor a :: rest => some (⟨some a, none⟩, rest)
  | .tag t :: rest => (handles.resolve? t).map fun tag => (⟨none, some tag⟩, rest)
  | rest => some (⟨none, none⟩, rest)

end Properties

namespace Node

/-- What a node may be where it stands: whether a block collection, and whether a sequence whose
entries are not indented. -/
structure Place where
  block : Bool
  indentless : Bool

def Place.entry : Place := ⟨true, false⟩

def Place.inMapping : Place := ⟨true, true⟩

def Place.flow : Place := ⟨false, false⟩

def startsWith (ends : List Token) (ts : List Token) : Bool := ts.head?.any (· ∈ ends)

mutual

def read (handles : Handles) : Nat → Place → List Token → Option (Node String × List Token)
  | 0, _, _ => none
  | _ + 1, _, .alias name :: rest => some (.alias name, rest)
  | n + 1, place, ts => do
    let (p, ts) ← Properties.read handles ts
    match ts, place with
    | .scalar isPlain text :: rest, _ => return (.scalar p.anchor p.tag isPlain text, rest)
    | .openSequence :: rest, _ =>
      let (items, rest) ← readFlowItems handles n true rest
      return (.sequence p.anchor p.tag items, rest)
    | .openMapping :: rest, _ =>
      let (pairs, rest) ← readFlowPairs handles n true rest
      return (.mapping p.anchor p.tag pairs, rest)
    | .entry :: _, ⟨_, true⟩ =>
      let (items, rest) ← readEntries handles n true ts
      return (.sequence p.anchor p.tag items, rest)
    | .blockSequence :: rest, ⟨true, _⟩ =>
      let (items, rest) ← readEntries handles n false rest
      return (.sequence p.anchor p.tag items, rest)
    | .blockMapping :: rest, ⟨true, _⟩ =>
      let (pairs, rest) ← readPairs handles n rest
      return (.mapping p.anchor p.tag pairs, rest)
    | _, _ => if p.any then return (.scalar p.anchor p.tag true "", ts) else failure

def readUnless (handles : Handles) : Nat → List Token → Place → List Token →
    Option (Node String × List Token)
  | 0, _, _, _ => none
  | n + 1, ends, place, ts =>
    if startsWith ends ts then some (.empty, ts) else read handles n place ts

/-- The entries of a block sequence. One without indentation ends where no further entry is. -/
def readEntries (handles : Handles) : Nat → Bool → List Token →
    Option (List (Node String) × List Token)
  | 0, _, _ => none
  | n + 1, indentless, .entry :: rest => do
    let ends := if indentless then [.entry, .key, .value, .blockEnd] else [.entry, .blockEnd]
    let (item, rest) ← readUnless handles n ends .entry rest
    let (items, rest) ← readEntries handles n indentless rest
    return (item :: items, rest)
  | _ + 1, true, ts => some ([], ts)
  | _ + 1, false, .blockEnd :: rest => some ([], rest)
  | _ + 1, false, _ => none

def readValue (handles : Handles) : Nat → List Token → Place → List Token →
    Option (Node String × List Token)
  | 0, _, _, _ => none
  | n + 1, ends, place, .value :: rest => readUnless handles n ends place rest
  | _ + 1, _, _, ts => some (.empty, ts)

def readPairs (handles : Handles) : Nat → List Token →
    Option (List (Node String × Node String) × List Token)
  | 0, _ => none
  | n + 1, .key :: rest => do
    let ends := [.key, .value, .blockEnd]
    let (key, rest) ← readUnless handles n ends .inMapping rest
    let (value, rest) ← readValue handles n ends .inMapping rest
    let (pairs, rest) ← readPairs handles n rest
    return ((key, value) :: pairs, rest)
  | _ + 1, .blockEnd :: rest => some ([], rest)
  | _ + 1, _ => none

/-- The items of a sequence in brackets. An item with a key mark is a mapping of one pair; where its
key is left out, the token that shows this is passed over. -/
def readFlowItems (handles : Handles) : Nat → Bool → List Token →
    Option (List (Node String) × List Token)
  | 0, _, _ => none
  | _ + 1, _, .closeSequence :: rest => some ([], rest)
  | n + 1, isFirst, ts =>
    match if isFirst then some ts else if startsWith [.comma] ts then some ts.tail else none with
    | none => none
    | some (.closeSequence :: rest) => some ([], rest)
    | some (.key :: rest) => do
      let (key, rest) ←
        if startsWith [.value, .comma, .closeSequence] rest then some (.empty, rest.tail)
        else read handles n .flow rest
      let (value, rest) ← readValue handles n [.comma, .closeSequence] .flow rest
      let (items, rest) ← readFlowItems handles n false rest
      return (.mapping none none [(key, value)] :: items, rest)
    | some ts => do
      let (item, rest) ← read handles n .flow ts
      let (items, rest) ← readFlowItems handles n false rest
      return (item :: items, rest)

def readFlowPairs (handles : Handles) : Nat → Bool → List Token →
    Option (List (Node String × Node String) × List Token)
  | 0, _, _ => none
  | _ + 1, _, .closeMapping :: rest => some ([], rest)
  | n + 1, isFirst, ts =>
    match if isFirst then some ts else if startsWith [.comma] ts then some ts.tail else none with
    | none => none
    | some (.closeMapping :: rest) => some ([], rest)
    | some (.key :: rest) => do
      let (key, rest) ← readUnless handles n [.value, .comma, .closeMapping] .flow rest
      let (value, rest) ← readValue handles n [.comma, .closeMapping] .flow rest
      let (pairs, rest) ← readFlowPairs handles n false rest
      return ((key, value) :: pairs, rest)
    | some ts => do
      let (key, rest) ← read handles n .flow ts
      let (pairs, rest) ← readFlowPairs handles n false rest
      return ((key, .empty) :: pairs, rest)

end

/-- Enough steps for any tokens: between two of them, at most three calls are made. -/
def steps (ts : List Token) : Nat := 4 * ts.length + 4

end Node

end DeclForest.Yaml
