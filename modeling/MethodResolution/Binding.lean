/-
  Method resolution — bound calls.

  Once a candidate is selected, the call is bound to it: each parameter gets a
  converted argument or its default, a member call is dispatched directly or
  virtually, and an extension gets the receiver the way the convention says.
-/
import MethodResolution.CallSite
import MethodResolution.Candidate

namespace MethodResolution

/-- What a parameter gets. -/
inductive BoundArg where
  | converted (conversion : Conversion)
  | default
  deriving DecidableEq, Inhabited, Repr

/-- How a member is called. -/
inductive Dispatch where
  | direct
  | virtual
  deriving DecidableEq, Inhabited, Repr

/-- How an extension gets its receiver. -/
inductive Passing where
  | addressOf
  | byReference
  deriving DecidableEq, Inhabited, Repr

/-- A convention of pointers passes the address, one of references the object. -/
def Passing.ofConvention : Convention → Passing
  | .pointer => addressOf
  | .reference => byReference

/-- A call with all that is needed to carry it out. -/
inductive BoundCall where
  | member (key : Key) (receiver : DataType) (dispatch : Dispatch) (args : List BoundArg)
  | extension (key : Key) (boundType : Key) (passing : Passing) (conversion : Conversion)
      (args : List BoundArg)
  deriving DecidableEq, Inhabited, Repr

namespace BoundCall

def key : BoundCall → Key
  | member key _ _ _ | extension key _ _ _ _ => key

def tier : BoundCall → Tier
  | member .. => .member
  | extension .. => .extension

def isExtension : BoundCall → Bool
  | member .. => false
  | extension .. => true

def args : BoundCall → List BoundArg
  | member _ _ _ args | extension _ _ _ _ args => args

end BoundCall

/-- What a parameter gets: the converted argument if one is supplied. -/
def BoundArg.ofSlot : Option Conversion → BoundArg
  | some conversion => converted conversion
  | none => default

/-- A member is dispatched virtually if it is virtual and the receiver is
    reached through a reference or a pointer, for only then may the object be
    of a class derived from the static one. -/
def Dispatch.of (c : Callable) (receiver : DataType) : Dispatch :=
  if c.isVirtual && receiver.indirection.isIndirect then virtual else direct

def Registry.bind (r : Registry) (c : Candidate) (call : CallSite) : BoundCall :=
  let args := c.fit.args.map BoundArg.ofSlot
  match c.tier with
  | .member => .member c.key call.receiver (.of c.callable call.receiver) args
  | .extension =>
    .extension c.key call.receiver.type (.ofConvention r.policy.convention)
      (c.fit.receiver.getD .identity) args

end MethodResolution
