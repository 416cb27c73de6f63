/-
  Method resolution — classes and the other named types.

  A class has a name, at most one base class, and the members it declares.
  The base is given by key and may be registered after the class.
-/
import MethodResolution.Callable

namespace MethodResolution

structure Class where
  name : QualifiedName
  key : Key
  base : Option Key := none
  methods : List Callable := []
  span : Span := {}
  deriving DecidableEq, Inhabited, Repr

namespace Class

/-- A class without base and members, under the key of its name. -/
def named (name : QualifiedName) : Class := { name := name, key := Key.ofName name.text }

def methodsNamed (c : Class) (name : String) : List Callable :=
  c.methods.filter (·.simpleName = name)

/-- Whether the class itself declares a member of the given name. -/
def declares (c : Class) (name : String) : Bool := c.methods.any (·.simpleName = name)

def addMethod (c : Class) (m : Callable) : Class := { c with methods := c.methods ++ [m] }

theorem declares_iff {c : Class} {name : String} :
    c.declares name = true ↔ c.methodsNamed name ≠ [] := by
  simp [declares, methodsNamed, List.filter_eq_nil_iff]

end Class

inductive TypeEntry where
  | primitive (name : String) (key : Key)
  | ofClass (c : Class)
  deriving DecidableEq, Inhabited, Repr

namespace TypeEntry

def key : TypeEntry → Key
  | primitive _ key => key
  | ofClass c => c.key

def name : TypeEntry → QualifiedName
  | primitive name _ => .global name
  | ofClass c => c.name

def isPrimitive : TypeEntry → Bool
  | primitive _ _ => true
  | ofClass _ => false

def class? : TypeEntry → Option Class
  | primitive _ _ => none
  | ofClass c => some c

/-- Change the class; a primitive stays as it is. -/
def mapClass (f : Class → Class) : TypeEntry → TypeEntry
  | primitive name key => primitive name key
  | ofClass c => ofClass (f c)

@[simp] theorem class?_mapClass (f : Class → Class) (t : TypeEntry) :
    (t.mapClass f).class? = t.class?.map f := by
  cases t <;> rfl

end TypeEntry

end MethodResolution
