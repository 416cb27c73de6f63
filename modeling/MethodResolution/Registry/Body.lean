/-
  Method resolution — what the body of an extension may use.

  The body is checked where the extension is declared.  On a receiver of a
  known type it may use the members that the type declares publicly.  On a
  constrained receiver it may use what the constraint requires of members, for
  nothing else is known of the receivers to come.

  A name is public if one of its overloads is; which of them the use means is
  not decided here.
-/
import MethodResolution.Registry.Error
import MethodResolution.Registry.Lineage
import MethodResolution.Registry.Text

namespace MethodResolution

namespace Registry

def requiresMember (r : Registry) (constraint : Key) (name : String) : Bool :=
  (r.requirements constraint).any fun q => q.mode == .member && q.name == name

/-- What is wrong with using `name` on a receiver that meets `constraint`. -/
def constrainedUseFault? (r : Registry) (function : String) (constraint : Key) (name : String) :
    Option RegistrationFault :=
  if r.requiresMember constraint name then none
  else some (.unknownMember function name (r.conceptText constraint))

/-- What is wrong with using `name` on a receiver of the type `k`.  Of hidden
    overloads, a private one is reported before a protected one. -/
def concreteUseFault? (r : Registry) (function : String) (k : Key) (name : String) :
    Option RegistrationFault :=
  let overloads := r.membersNamed k name
  if overloads.isEmpty then some (.unknownMember function name (r.typeName k))
  else if overloads.any (·.visibility.isPublic) then none
  else if overloads.any (·.visibility == .private) then some (.hiddenMember function name .private)
  else some (.hiddenMember function name .protected)

/-- What is wrong with one use of a receiver member in the body of `c`, whose
    receiver has the type `k`. -/
def useFault? (r : Registry) (c : Callable) (k : Key) (name : String) : Option RegistrationFault :=
  if k = Key.constrained then
    c.constraint.bind fun constraint => r.constrainedUseFault? c.name.text constraint name
  else r.concreteUseFault? c.name.text k name

def bodyError? (r : Registry) (c : Callable) : Option RegistrationError :=
  c.receiverParam?.bind fun receiver =>
    c.bodyRefs.findSome? fun member =>
      (r.useFault? c receiver.type.type member.name).map fun fault => ⟨member.span, fault⟩

end Registry

end MethodResolution
