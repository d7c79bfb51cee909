import DeclForest.Yaml.Node
import DeclForest.Yaml.Scan

/-!
Documents. A text holds at most one; without any it stands for an empty node. Anchors are numbered
by how many names were known before, so that a name given anew shares its number with the next new
name, and of two nodes with one number the later in the text counts.
-/

namespace DeclForest.Yaml

namespace Token

def isDirective : Token → Bool
  | directive _ => true
  | _ => false

def handles? (directives : List Token) : Option Handles :=
  let defined := directives.filterMap fun
    | .directive (.handle name start) => some (name, start)
    | _ => none
  let versions := directives.count (.directive .version)
  if versions ≤ 1 ∧ (defined.map Prod.fst).Nodup then some defined else none

end Token

namespace Node

def ofTokens? (ts : List Token) : Option (Option (Node String)) := do
  let directives := ts.takeWhile Token.isDirective
  let handles ← Token.handles? directives
  let rest := ts.dropWhile Token.isDirective
  let (root, rest) ←
    match rest with
    | .documentStart :: rest =>
      if rest.head?.all fun t => t.isDirective || t ∈ [.documentStart, .documentEnd] then
        some (some .empty, rest)
      else (read handles (steps rest) .entry rest).map fun (root, rest) => (some root, rest)
    | [] => if directives.isEmpty then some (none, []) else none
    | rest =>
      if directives.isEmpty then
        (read handles (steps rest) .entry rest).map fun (root, rest) => (some root, rest)
      else none
  if rest.all (· = .documentEnd) then return root else failure

abbrev Names := List (String × Nat)

def Names.define (names : Names) (name : String) : Nat × Names :=
  (names.length,
    if (names.lookup name).isSome then
      names.map fun known => if known.1 = name then (name, names.length) else known
    else names ++ [(name, names.length)])

def defineAnchor (names : Names) : Option String → Option Nat × Names
  | none => (none, names)
  | some name =>
    let (number, names) := names.define name
    (some number, names)

mutual

def number (names : Names) : Node String → Option (Node Nat × Names)
  | .alias name => (names.lookup name).map fun number => (.alias number, names)
  | .scalar anchor tag isPlain text =>
    let (anchor, names) := defineAnchor names anchor
    some (.scalar anchor tag isPlain text, names)
  | .sequence anchor tag items => do
    let (anchor, names) := defineAnchor names anchor
    let (items, names) ← numberItems names items
    return (.sequence anchor tag items, names)
  | .mapping anchor tag pairs => do
    let (anchor, names) := defineAnchor names anchor
    let (pairs, names) ← numberPairs names pairs
    return (.mapping anchor tag pairs, names)

def numberItems (names : Names) : List (Node String) → Option (List (Node Nat) × Names)
  | [] => some ([], names)
  | item :: items => do
    let (item, names) ← number names item
    let (items, names) ← numberItems names items
    return (item :: items, names)

def numberPairs (names : Names) :
    List (Node String × Node String) → Option (List (Node Nat × Node Nat) × Names)
  | [] => some ([], names)
  | (key, value) :: pairs => do
    let (key, names) ← number names key
    let (value, names) ← number names value
    let (pairs, names) ← numberPairs names pairs
    return ((key, value) :: pairs, names)

end

def anchor? : Node Nat → Option Nat
  | .alias _ => none
  | .scalar anchor .. | .sequence anchor .. | .mapping anchor .. => anchor

mutual

def within : Node Nat → List (Node Nat)
  | .sequence anchor tag items => .sequence anchor tag items :: withinItems items
  | .mapping anchor tag pairs => .mapping anchor tag pairs :: withinPairs pairs
  | leaf => [leaf]

def withinItems : List (Node Nat) → List (Node Nat)
  | [] => []
  | item :: items => within item ++ withinItems items

def withinPairs : List (Node Nat × Node Nat) → List (Node Nat)
  | [] => []
  | (key, value) :: pairs => within key ++ within value ++ withinPairs pairs

end

def weight : Node Nat → Nat
  | .alias _ | .scalar .. => 1
  | .sequence .. | .mapping .. => 2

end Node

structure Document where
  root : Node Nat
  anchored : List (Nat × Node Nat)
  aliasLimit : Nat

namespace Document

/-- How many aliases may be followed for each start, end, scalar or alias of a document. -/
def aliasesPerItem : Nat := 100

def ofNode (root : Node Nat) : Document :=
  let nodes := root.within
  ⟨root, (nodes.filterMap fun node => node.anchor?.map (·, node)).reverse,
    aliasesPerItem * (nodes.map Node.weight).foldr (· + ·) 0⟩

def ofText? (text : String) : Option Document := do
  match ← Node.ofTokens? (← Token.ofText? text.toList) with
  | some root => return ofNode (← root.number []).1
  | none => return ofNode .empty

end Document

end DeclForest.Yaml
