/-
  Method resolution — constraints.

  A constraint is a conjunction of required signatures on one type.  Each is
  met by a member of the type or by a free function that takes the type first,
  as the constraint says for all signatures it declares itself.  A type meets
  a constraint by having what is required; it never declares to do so.

  A constraint may refine others and then requires what they require, too.
-/
import MethodResolution.DataType
import MethodResolution.QualifiedName
import MethodResolution.Span

namespace MethodResolution

/-- Where a required signature is looked up. -/
inductive LookupMode where
  /-- Among the members of the type. -/
  | member
  /-- Among the free functions visible from the constraint. -/
  | free
  deriving DecidableEq, Inhabited, Repr

def LookupMode.text : LookupMode → String
  | member => "member"
  | free => "free"

/-- A required signature.  In it, `Key.self` stands for the type under test. -/
structure Signature where
  name : String
  params : List DataType := []
  /-- What the result has to convert to. -/
  returns : Option DataType := none
  /-- Whether the signature has to work on a const object. -/
  onConst : Bool := false
  deriving DecidableEq, Inhabited, Repr

/-- The parameters of a required signature for the type `k` under test. -/
def Signature.paramsFor (s : Signature) (k : Key) : List DataType :=
  s.params.map (·.instantiate k)

/-- The object on which a required signature has to work. -/
def Signature.subjectFor (s : Signature) (k : Key) : DataType := ⟨k, s.onConst, .reference⟩

/-- A required signature with the place where it is looked up. -/
structure Requirement extends Signature where
  mode : LookupMode
  deriving DecidableEq, Inhabited, Repr

structure Constraint where
  name : QualifiedName
  key : Key
  mode : LookupMode := .member
  signatures : List Signature := []
  refines : List Key := []
  span : Span := {}
  deriving DecidableEq, Inhabited, Repr

namespace Constraint

/-- A constraint that requires nothing, under the key of its name. -/
def named (name : QualifiedName) (mode : LookupMode) : Constraint :=
  { name := name, key := Key.ofConstraint name.text, mode := mode }

def own (c : Constraint) : List Requirement := c.signatures.map fun s => { s with mode := c.mode }

end Constraint

/-- A registered constraint, together with everything it requires. -/
structure Concept extends Constraint where
  requirements : List Requirement
  deriving DecidableEq, Inhabited, Repr

end MethodResolution
