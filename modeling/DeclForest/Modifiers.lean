import DeclForest.Fault
import DeclForest.Text

/-!
Sets of modifiers. A set is sixteen bits; ten of them are flags with a keyword, the others are kept
as they are so that a check can report them. The empty set is package-private access.
-/

namespace DeclForest

inductive Flag where
  | publicAccess | privateAccess | protectedAccess
  | static | final | synchronized | volatile | transient | native | abstract
  deriving DecidableEq, Repr

namespace Flag

def all : List Flag :=
  [publicAccess, privateAccess, protectedAccess, static, final, synchronized, volatile, transient,
   native, abstract]

def sourceOrder : List Flag :=
  [publicAccess, protectedAccess, privateAccess, abstract, static, final, transient, volatile,
   synchronized, native]

def mask : Flag → BitVec 16
  | publicAccess => 0x0001
  | privateAccess => 0x0002
  | protectedAccess => 0x0004
  | static => 0x0008
  | final => 0x0010
  | synchronized => 0x0020
  | volatile => 0x0040
  | transient => 0x0080
  | native => 0x0100
  | abstract => 0x0400

def keyword : Flag → String
  | publicAccess => "public"
  | privateAccess => "private"
  | protectedAccess => "protected"
  | static => "static"
  | final => "final"
  | synchronized => "synchronized"
  | volatile => "volatile"
  | transient => "transient"
  | native => "native"
  | abstract => "abstract"

theorem mem_all (flag : Flag) : flag ∈ all := by cases flag <;> decide

end Flag

structure Modifiers where
  bits : BitVec 16
  deriving DecidableEq, Repr

namespace Modifiers

def empty : Modifiers := ⟨0⟩

def ofBits (n : Nat) : Modifiers := ⟨BitVec.ofNat 16 n⟩

def toNat (m : Modifiers) : Nat := m.bits.toNat

def ofFlag (flag : Flag) : Modifiers := ⟨flag.mask⟩

def union (a b : Modifiers) : Modifiers := ⟨a.bits ||| b.bits⟩

def inter (a b : Modifiers) : Modifiers := ⟨a.bits &&& b.bits⟩

def sdiff (a b : Modifiers) : Modifiers := ⟨a.bits &&& ~~~b.bits⟩

def ofFlags (flags : List Flag) : Modifiers := (flags.map ofFlag).foldl union empty

def isEmpty (m : Modifiers) : Bool := m.bits == 0

def contains (m : Modifiers) (flag : Flag) : Bool := m.bits &&& flag.mask != 0

def unknown (m : Modifiers) : Modifiers := m.sdiff (ofFlags Flag.all)

def visibilityFlags : List Flag := [.publicAccess, .privateAccess, .protectedAccess]

def visibility : Modifiers := ofFlags visibilityFlags

def visibilityCount (m : Modifiers) : Nat := (visibilityFlags.filter m.contains).length

def isAbstract (m : Modifiers) : Bool := m.contains .abstract

def isStatic (m : Modifiers) : Bool := m.contains .static

def words (m : Modifiers) : List String :=
  (Flag.sourceOrder.filter m.contains).map Flag.keyword ++
    if m.unknown.isEmpty then [] else ["0x" ++ String.ofList (Text.hex 4 m.unknown.toNat)]

def display (m : Modifiers) : String := " ".intercalate m.words

def leading (m : Modifiers) : String := if m.isEmpty then "" else m.display ++ " "

example : (ofFlags [.final, .static, .privateAccess]).display = "private static final" := by
  decide +kernel
example : (ofBits 0x0201).display = "public 0x0200" := by decide +kernel

end Modifiers

/-! ## Constructs

Each kind of construct has a mask; a set is legal on it when every bit is inside the mask and at
most one visibility is set. -/

inductive ConstructKind where
  | field | method | constructor | initializer | staticInitializer
  | topClass | topInterface
  | nestedClass | nestedInterface
  | interfaceField | interfaceMethod
  | interfaceMemberClass | interfaceMemberInterface
  deriving DecidableEq, Repr

namespace ConstructKind

open Modifiers

def legalFlags : ConstructKind → List Flag
  | field => visibilityFlags ++ [.static, .final, .transient, .volatile]
  | method => visibilityFlags ++ [.abstract, .static, .final, .synchronized, .native]
  | constructor => visibilityFlags
  | initializer => []
  | staticInitializer => [.static]
  | topClass => [.publicAccess, .abstract, .final]
  | topInterface => [.publicAccess, .abstract]
  | nestedClass => visibilityFlags ++ [.abstract, .static, .final]
  | nestedInterface => visibilityFlags ++ [.abstract, .static]
  | interfaceField => [.publicAccess, .static, .final]
  | interfaceMethod => [.publicAccess, .abstract]
  | interfaceMemberClass => [.publicAccess, .abstract, .static, .final]
  | interfaceMemberInterface => [.publicAccess, .abstract, .static]

def legal (k : ConstructKind) : Modifiers := ofFlags k.legalFlags

def allows (k : ConstructKind) (m : Modifiers) : Bool :=
  (m.sdiff k.legal).isEmpty && m.visibilityCount ≤ 1

def display : ConstructKind → String
  | field => "field"
  | method => "method"
  | constructor => "constructor"
  | initializer => "initializer"
  | staticInitializer => "static initializer"
  | topClass => "top-level class"
  | topInterface => "top-level interface"
  | nestedClass => "nested class"
  | nestedInterface => "nested interface"
  | interfaceField => "interface field"
  | interfaceMethod => "interface method"
  | interfaceMemberClass => "class in an interface"
  | interfaceMemberInterface => "interface in an interface"

/-- What a refusal names: the bits outside the mask, or else the visibilities that collide. -/
def offending (k : ConstructKind) (m : Modifiers) : Modifiers :=
  if (m.sdiff k.legal).isEmpty then m.inter visibility else m.sdiff k.legal

def check (k : ConstructKind) (m : Modifiers) : Except Fault Unit :=
  if k.allows m then .ok () else .error (.invalidModifier (k.offending m).display k.display)

theorem check_eq_ok_iff {k : ConstructKind} {m : Modifiers} :
    k.check m = .ok () ↔ k.allows m = true := by
  simp [check]

end ConstructKind

/-! ## Text form

The parts of a set are joined by bars, each the label of a flag or a hexadecimal number after `0x`.
Writing lists the flags from the lowest bit up and puts the other bits into one number; reading
takes the parts in any order, with any white space around them. -/

def Flag.label (flag : Flag) : String := String.ofList (flag.keyword.toList.map Char.toUpper)

namespace Modifiers

def spell (m : Modifiers) : String :=
  " | ".intercalate ((Flag.all.filter m.contains).map Flag.label ++
    if m.unknown.isEmpty then [] else ["0x" ++ String.ofList (Text.hex 0 m.unknown.toNat)])

def pieces : List Char → List (List Char)
  | [] => [[]]
  | c :: rest =>
    if c = '|' then [] :: pieces rest
    else match pieces rest with
      | [] => [[c]]
      | piece :: others => (c :: piece) :: others

def hexValue? (digits : List Char) : Option Nat :=
  digits.foldlM (fun n c => (Text.hexDigit? c).map (16 * n + ·)) 0

def bits? (s : List Char) : Option Modifiers :=
  let digits := if s.head? = some '+' then s.tail else s
  if digits.isEmpty then none
  else match hexValue? digits with
    | some n => if n < Nat.pow 2 16 then some (ofBits n) else none
    | none => none

def labelled? (s : List Char) : Option Modifiers :=
  (Flag.all.find? fun flag => flag.label.toList == s).map ofFlag

def part? : List Char → Option Modifiers
  | '0' :: 'x' :: digits => bits? digits
  | label => labelled? label

/-- Blank text is the empty set; an empty part, or one that names no flag, is refused. -/
def ofSpelling? (text : List Char) : Option Modifiers :=
  if (Text.trim text).isEmpty then some empty
  else ((pieces text).mapM fun piece => part? (Text.trim piece)).map (·.foldl union empty)

example : ofSpelling? " FINAL|0x+0200 | PUBLIC ".toList = some (ofBits 0x0211) := by decide +kernel
example : ofSpelling? "PUBLIC||FINAL".toList = none := by decide +kernel
example : (ofBits 0x0211).spell = "PUBLIC | FINAL | 0x200" := by decide +kernel

end Modifiers

end DeclForest
