/-
  Method resolution — policy.

  A program fixes once how extensions take their receiver and how constraints
  are evaluated; the registry carries the policy and everything reads it
  there.
-/
import MethodResolution.DataType

namespace MethodResolution

/-- How the receiver parameter of an extension is written. -/
inductive Convention where
  | pointer
  | reference
  deriving DecidableEq, Inhabited, Repr

namespace Convention

def indirection : Convention → Indirection
  | pointer => .pointer
  | reference => .reference

def text : Convention → String
  | pointer => "pointer"
  | reference => "reference"

end Convention

/-- The choices fixed for a whole program. -/
structure Policy where
  convention : Convention := .pointer
  /-- Whether answers to constraint queries are kept for later queries. -/
  memoize : Bool := true
  /-- How many constraint queries may be in progress at once. -/
  depthLimit : Nat := 16
  deriving DecidableEq, Inhabited, Repr

end MethodResolution
