/-
  Method resolution — callables.

  A callable is a member function, which has an owner, or a free function.  A
  free function whose parameter zero is marked as the receiver is an extension:
  it can be called like a member.  Parameter zero of a free function may have
  the placeholder type `Key.constrained`; it then takes any type that
  satisfies the constraint of the function.

  * `computeKey` is the key of a callable: name, parameter signatures, and for
    a member owner and constness, for a free function the constraint.
-/
import MethodResolution.Access
import MethodResolution.DataType
import MethodResolution.QualifiedName
import MethodResolution.Span

namespace MethodResolution

structure Param where
  type : DataType
  /-- Whether a call may leave out the argument. -/
  hasDefault : Bool := false
  deriving DecidableEq, Inhabited, Repr

/-- A use of a receiver member in the body of an extension. -/
structure MemberRef where
  name : String
  span : Span := {}
  deriving DecidableEq, Inhabited, Repr

/-- A member function or a free function. -/
structure Callable where
  name : QualifiedName
  /-- The class of a member; free functions have none. -/
  owner : Option Key := none
  /-- The key under which the callable is registered, `Key.none` before. -/
  key : Key := Key.none
  params : List Param := []
  returns : DataType := DataType.void
  visibility : Visibility := .public
  isConst : Bool := false
  isVirtual : Bool := false
  isDeleted : Bool := false
  /-- Which parameter is marked as the receiver. -/
  receiver : Option Nat := none
  /-- What parameter zero has to satisfy. -/
  constraint : Option Key := none
  span : Span := {}
  /-- The receiver members that the body uses, in the order of use. -/
  bodyRefs : List MemberRef := []
  deriving DecidableEq, Inhabited, Repr

namespace Callable

/-! ## Making callables -/

/-- A member of `owner` without parameters.  The name of a member is simple
    and is not read as a path. -/
def member (owner : Key) (name : String) : Callable :=
  { name := .global name, owner := some owner }

def free (name : QualifiedName) : Callable := { name := name }

/-- Put a receiver parameter in front of the others. -/
def withReceiver (c : Callable) (type : DataType) : Callable :=
  { c with params := ⟨type, false⟩ :: c.params, receiver := some 0 }

/-! ## Questions -/

/-- The name without its namespaces. -/
def simpleName (c : Callable) : String := c.name.name

def isMember (c : Callable) : Bool := c.owner.isSome

/-- Whether the callable can be called like a member without being one. -/
def isExtension (c : Callable) : Bool := c.owner.isNone && c.receiver.isSome

theorem isMember_of_owner {c : Callable} {owner : Key} (h : c.owner = some owner) :
    c.isMember = true := by
  rw [isMember, h, Option.isSome_some]

theorem isMember_of_isExtension {c : Callable} (h : c.isExtension = true) :
    c.isMember = false := by
  rw [isExtension, Bool.and_eq_true] at h
  rw [isMember, ← Option.not_isNone, h.1, Bool.not_true]

def receiverParam? (c : Callable) : Option Param := c.receiver.bind (c.params[·]?)

/-- The parameters that take the arguments of a call: all parameters of a
    member, and all but the first of a free function, which takes the
    receiver. -/
def tail (c : Callable) : List Param := if c.isMember then c.params else c.params.drop 1

/-- Whether parameter zero takes any type that satisfies a constraint. -/
def takesConstrained (c : Callable) : Bool :=
  c.params.head?.any fun p => p.type.type == Key.constrained

/-- The qualifiers as a bit set: const 1, virtual 2, deleted 4. -/
def qualifierBits (c : Callable) : Nat :=
  c.isConst.toNat + 2 * c.isVirtual.toNat + 4 * c.isDeleted.toNat

/-! ## Keys -/

def paramSignatures (c : Callable) (digest : Digest := Digest.xxh64) : List Key :=
  c.params.map fun p => p.type.signature digest

/-- The key of the callable.  Two overloads of one constrained function may
    differ in nothing but the constraint, so it is mixed in as if it were the
    last parameter. -/
def computeKey (c : Callable) (digest : Digest := Digest.xxh64) : Key :=
  match c.owner with
  | some owner => Key.ofMember owner c.simpleName (c.paramSignatures digest) c.isConst digest
  | none => Key.ofFunction c.name.text (c.paramSignatures digest ++ c.constraint.toList) digest

def keyed (c : Callable) : Callable := { c with key := c.computeKey }

end Callable

end MethodResolution
