/-
  Method resolution — runs of declarations.

  A program is a list of declarations, registered one after the other.  A
  refused declaration is reported and otherwise passed over.

  * `declare` registers one declaration;
  * `after` is the registry that a list of declarations leaves behind.
-/
import MethodResolution.Registry.Register

namespace MethodResolution

/-- One step of building a registry. -/
inductive Declaration where
  | primitives
  | ofClass (c : Class)
  /-- Declare a member of the class `owner`. -/
  | member (owner : Key) (c : Callable)
  | free (c : Callable)
  | constraint (c : Constraint)
  /-- Import the namespace `imported` into the namespace `path`. -/
  | import_ (path imported : List String)
  deriving DecidableEq, Inhabited, Repr

namespace Registry

/-- Register one declaration.  Primitives and imports have no key to report. -/
def declare (r : Registry) : Declaration → Except RegistrationError (Option Key × Registry)
  | .primitives => .ok (none, r.registerPrimitives)
  | .ofClass c => (r.registerClass c).map fun (k, r) => (some k, r)
  | .member owner c => (r.registerMember owner c).map fun (k, r) => (some k, r)
  | .free c => (r.registerFree c).map fun (k, r) => (some k, r)
  | .constraint c => (r.registerConstraint c).map fun (k, r) => (some k, r)
  | .import_ path imported => .ok (none, r.registerUsing path imported)

/-- The registry after one declaration, refused or not. -/
def next (r : Registry) (d : Declaration) : Registry :=
  match r.declare d with
  | .ok (_, r) => r
  | .error _ => r

def after (r : Registry) (ds : List Declaration) : Registry := ds.foldl next r

def initial (policy : Policy) : Registry := { policy := policy }

end Registry

end MethodResolution
