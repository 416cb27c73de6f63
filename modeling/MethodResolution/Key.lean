/-
  Method resolution — keys.

  A key is a 64-bit number that stands for a type, a function or a constraint.
  Types and constraints are known by their qualified name, functions by name
  and parameters, members also by their class and constness; keys are only
  ever compared and printed.

  A key is the digest of the name combined by exclusive or with a marker of
  what is named, so that a type, a function, a member and a constraint of one
  name get different keys.  The parameters are then mixed in one after the
  other (`mix`), each with a marker of its position, so that their order
  counts.

  The digest is a parameter of every key function; by default it is
  `Digest.xxh64`.
-/
import MethodResolution.Digest

namespace MethodResolution

structure Key where
  bits : UInt64
  deriving DecidableEq, Inhabited, Repr

namespace Key

/-! ## Markers -/

/-- The odd multiplier between two parameters. -/
def separator : UInt64 := 0x4bc94d6bd06053ad

def typeMark : UInt64 := 0x2fac10b63a6cc57c

def functionMark : UInt64 := 0x5ea77ffbcdf5f302

def memberMark : UInt64 := 0x7d3c8b4a92e15f6d

def constraintMark : UInt64 := 0x61c8864680b583eb

def firstPositionMark : UInt64 := 0x9e3779b97f4a7c15

def positionMarks : List UInt64 :=
  [firstPositionMark, 0xbf58476d1ce4e5b9, 0x94d049bb133111eb, 0xd6e8feb86659fd93,
    0xe7037ed1a0b428db, 0xc6a4a7935bd1e995, 0x8648dbbc94d49b8d, 0xa2b48b2c69e0d657,
    0x7c3e9f2a5b8d1403, 0x5d8c7b4a3e9f2106, 0x3f1e9d8c7b5a4203, 0x1a2b3c4d5e6f7089,
    0x9f8e7d6c5b4a3210, 0x2468ace013579bdf, 0xfdb97531eca86420, 0x123456789abcdef0]

/-- The marker of position `i`: listed for the first sixteen, counted up from
    the first marker after them. -/
def positionMark (i : Nat) : UInt64 :=
  positionMarks[i]?.getD (firstPositionMark + i.toUInt64)

/-! ## Distinguished keys -/

/-- The key of nothing, carried by a function that has none yet. -/
def none : Key := ⟨0⟩

/-- Stands for the type under test in the requirements of a constraint. -/
def self : Key := ⟨0xfffffffffffffffe⟩

/-- Stands for the type of a parameter that a constraint describes. -/
def constrained : Key := ⟨0xfffffffffffffffd⟩

def isNone (k : Key) : Bool := k == none

/-! ## Keys of declarations -/

def utf8 (text : String) : List UInt8 := text.toUTF8.data.toList

/-- Mix the keys `ps` of the parameters at positions `i`, `i + 1`, … into `acc`. -/
def mixFrom (i : Nat) (acc : UInt64) : List Key → UInt64
  | [] => acc
  | p :: ps => mixFrom (i + 1) (acc * separator + (positionMark i ^^^ p.bits)) ps

def mix (acc : UInt64) (ps : List Key) : UInt64 := mixFrom 0 acc ps

def ofName (name : String) (digest : Digest := Digest.xxh64) : Key :=
  ⟨typeMark ^^^ digest (utf8 name)⟩

def ofConstraint (name : String) (digest : Digest := Digest.xxh64) : Key :=
  ⟨constraintMark ^^^ digest (utf8 name)⟩

def ofFunction (name : String) (ps : List Key) (digest : Digest := Digest.xxh64) : Key :=
  ⟨mix (functionMark ^^^ digest (utf8 name)) ps⟩

def ofMember (owner : Key) (name : String) (ps : List Key) (isConst : Bool)
    (digest : Digest := Digest.xxh64) : Key :=
  ⟨mix (memberMark ^^^ owner.bits ^^^ digest (utf8 name) ^^^ if isConst then 1 else 0) ps⟩

/-! ## Text -/

/-- The `n` lowest hexadecimal digits of `x`, most significant first. -/
def hexDigits : Nat → Nat → List Char
  | 0, _ => []
  | n + 1, x => hexDigits n (x / 16) ++ [Nat.digitChar (x % 16)]

/-- A key is written as sixteen hexadecimal digits. -/
def text (k : Key) : String := "0x" ++ String.ofList (hexDigits 16 k.bits.toNat)

def anonymousText (k : Key) : String := "TypeHash(" ++ k.text ++ ")"

end Key

end MethodResolution
