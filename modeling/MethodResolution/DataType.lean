/-
  Method resolution — data types.

  A data type is a type as it stands at a call or in a parameter list: the key
  of the type, whether it is const, and whether it is a value, a reference or
  a pointer.

  * `signature` is the key by which parameter lists are told apart.  Constness
    counts only behind a reference or a pointer: a parameter taken by value is
    a copy, so `const int` and `int` declare the same parameter.
-/
import MethodResolution.Primitive

namespace MethodResolution

/-- How a value is reached. -/
inductive Indirection where
  | value
  | reference
  | pointer
  deriving DecidableEq, Inhabited, Repr

namespace Indirection

def isIndirect : Indirection → Bool
  | value => false
  | reference | pointer => true

def text : Indirection → String
  | value => ""
  | reference => "&"
  | pointer => "*"

/-- The number by which a signature tells indirections apart. -/
def code : Indirection → UInt8
  | value => 0
  | reference => 1
  | pointer => 2

end Indirection

structure DataType where
  type : Key
  isConst : Bool := false
  indirection : Indirection := .value
  deriving DecidableEq, Inhabited, Repr

namespace DataType

/-! ## Making data types -/

def ofKey (k : Key) : DataType := ⟨k, false, .value⟩

def constValue (k : Key) : DataType := ⟨k, true, .value⟩
def reference (k : Key) : DataType := ⟨k, false, .reference⟩
def constReference (k : Key) : DataType := ⟨k, true, .reference⟩
def pointer (k : Key) : DataType := ⟨k, false, .pointer⟩
def constPointer (k : Key) : DataType := ⟨k, true, .pointer⟩

def void : DataType := ofKey Primitive.void.key

/-! ## Questions and changes -/

def isVoid (d : DataType) : Bool := d.type == Primitive.void.key

/-- Whether this stands for the type under test in a requirement. -/
def isSelf (d : DataType) : Bool := d.type == Key.self

/-- Put `k` for the type under test; the qualifiers stay. -/
def instantiate (d : DataType) (k : Key) : DataType := if d.isSelf then { d with type := k } else d

def withIndirection (d : DataType) (i : Indirection) : DataType := { d with indirection := i }

def unqualified (d : DataType) : DataType := ofKey d.type

def signatureBytes (d : DataType) : List UInt8 :=
  Digest.toBytes d.type.bits ++
    [d.indirection.code, if d.isConst && d.indirection.isIndirect then 1 else 0]

/-- The key by which a parameter of this type is told apart from others. -/
def signature (d : DataType) (digest : Digest := Digest.xxh64) : Key := ⟨digest d.signatureBytes⟩

def textWith (d : DataType) (typeName : String) : String :=
  (if d.isConst then "const " else "") ++ typeName ++ d.indirection.text

/-- The text of a data type with its type as a bare key. -/
def text (d : DataType) : String := d.textWith d.type.text

end DataType

end MethodResolution
