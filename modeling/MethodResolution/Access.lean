/-
  Method resolution — visibility and access.

  Members are public, protected or private.  Whether a call may use the member
  that it selects is a verdict of its own: access is judged after selection
  and never takes part in it.
-/

namespace MethodResolution

/-- Who may use a member. -/
inductive Visibility where
  | «public»
  | «protected»
  | «private»
  deriving DecidableEq, Inhabited, Repr

namespace Visibility

def isPublic : Visibility → Bool
  | «public» => true
  | «protected» | «private» => false

def text : Visibility → String
  | «public» => "public"
  | «protected» => "protected"
  | «private» => "private"

end Visibility

/-- Whether a call may use a callable. -/
inductive Access where
  | accessible
  /-- The member has the given visibility, which excludes the caller. -/
  | hidden (visibility : Visibility)
  | deleted
  deriving DecidableEq, Inhabited, Repr

namespace Access

def isAccessible : Access → Bool
  | accessible => true
  | hidden _ | deleted => false

def text : Access → String
  | accessible => "accessible"
  | hidden visibility => visibility.text
  | deleted => "deleted"

end Access

end MethodResolution
