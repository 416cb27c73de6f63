/-
  Method resolution — why a declaration is refused.
-/
import MethodResolution.Access
import MethodResolution.Span

namespace MethodResolution

/-- What is wrong with a declaration. -/
inductive RegistrationFault where
  | duplicateDefinition (name : String)
  | unknownType (name : String)
  | unknownConstraint (name : String)
  | receiverNotFirst (function : String) (index : Nat)
  /-- The receiver is not passed as the convention, `expected`, asks. -/
  | conventionMismatch (function expected : String)
  | memberWithReceiver (function : String)
  /-- A constrained parameter without a constraint, or the other way round. -/
  | constraintMismatch (function detail : String)
  | circularInheritance (name : String)
  | circularRefinement (name : String)
  /-- The body uses a member of the receiver that is not public. -/
  | hiddenMember (function member : String) (visibility : Visibility)
  /-- The body uses a member that the receiver need not have. -/
  | unknownMember (function member receiver : String)
  deriving DecidableEq, Inhabited, Repr

def RegistrationFault.text : RegistrationFault → String
  | duplicateDefinition name => "duplicate definition '" ++ name ++ "'"
  | unknownType name => "unknown type '" ++ name ++ "'"
  | unknownConstraint name => "unknown constraint '" ++ name ++ "'"
  | receiverNotFirst function index =>
    "receiver of '" ++ function ++ "' must be parameter 0, found index " ++ Nat.repr index
  | conventionMismatch function expected =>
    "receiver of '" ++ function ++ "' must be passed by " ++ expected
  | memberWithReceiver function =>
    "member '" ++ function ++ "' cannot declare a receiver parameter or constraint"
  | constraintMismatch function detail =>
    "'" ++ function ++ "' mixes a constrained parameter with " ++ detail
  | circularInheritance name => "circular inheritance for '" ++ name ++ "'"
  | circularRefinement name => "circular refinement for constraint '" ++ name ++ "'"
  | hiddenMember function member visibility =>
    "extension '" ++ function ++ "' references " ++ visibility.text ++ " receiver member '" ++
      member ++ "'"
  | unknownMember function member receiver =>
    "extension '" ++ function ++ "' references unknown member '" ++ member ++ "' on '" ++
      receiver ++ "'"

structure RegistrationError where
  span : Span
  fault : RegistrationFault
  deriving DecidableEq, Inhabited, Repr

def RegistrationError.message (e : RegistrationError) : String :=
  "at " ++ e.span.text ++ ": " ++ e.fault.text

end MethodResolution
