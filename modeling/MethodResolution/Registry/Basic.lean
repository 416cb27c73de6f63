/-
  Method resolution — the registry.

  The registry holds everything that was declared: types, members by class,
  free functions by key and by namespace, and constraints with all that they
  require.  Here are its tables and the lookups that read a single one of
  them; `Registry.Lineage` walks base classes.
-/
import MethodResolution.Class
import MethodResolution.Constraint
import MethodResolution.Namespace
import MethodResolution.Policy

namespace MethodResolution

structure Registry where
  policy : Policy := {}
  types : Table Key TypeEntry := ∅
  /-- The class of every registered member. -/
  memberOwner : Table Key Key := ∅
  functions : Table Key Callable := ∅
  concepts : Table Key Concept := ∅
  namespaces : NamespaceTree := .empty
  deriving DecidableEq, Inhabited, Repr

namespace Registry

def class? (r : Registry) (k : Key) : Option Class := (r.types.get? k).bind (·.class?)

def concept? (r : Registry) (k : Key) : Option Concept := r.concepts.get? k

/-- Everything that a constraint requires; an unknown one requires nothing. -/
def requirements (r : Registry) (k : Key) : List Requirement :=
  (r.concept? k).elim [] (·.requirements)

/-- The registered member or free function with the given key.  A member is
    looked up in its class. -/
def callable? (r : Registry) (k : Key) : Option Callable :=
  match r.memberOwner.get? k with
  | some owner => (r.class? owner).bind fun c => c.methods.find? (·.key = k)
  | none => r.functions.get? k

/-- The free functions that can be seen from a namespace under a simple name,
    in the order in which they are found. -/
def visibleFunctions (r : Registry) (path : List String) (name : String) : List Callable :=
  (r.namespaces.visible path name).filterMap r.functions.get?

end Registry

end MethodResolution
