/-
  Method resolution — gathering the candidates of a call.

  Members come first: extensions are looked for only where no member fits the
  call, so an extension never takes a call away from a member.
-/
import MethodResolution.CallSite
import MethodResolution.Satisfaction

namespace MethodResolution

structure Gathered where
  members : List Candidate := []
  extensions : List Candidate := []
  deriving DecidableEq, Inhabited, Repr

def Gathered.isEmpty (g : Gathered) : Bool := g.members.isEmpty && g.extensions.isEmpty

namespace Registry

def gatherMembers (r : Registry) (call : CallSite) : List Candidate :=
  r.memberCandidates call.receiver call.name call.args call.caller

/-- The visible extensions that a call may fit, each with the query it hangs
    on. -/
def extensionCandidates (r : Registry) (call : CallSite) : List (Contingent Candidate) :=
  r.freeCandidates ((r.visibleFunctions call.path call.name).filter (·.isExtension))
    call.receiver call.args call.caller

def gatherExtensions (r : Registry) (call : CallSite) : StateM Memo (List Candidate) :=
  Contingent.settleAll r.satisfies (r.extensionCandidates call)

def gather (r : Registry) (call : CallSite) : StateM Memo Gathered :=
  let members := r.gatherMembers call
  if members.isEmpty then do
    let extensions ← r.gatherExtensions call
    pure { extensions }
  else pure { members }

/-- Whether a call with the given receiver and arguments fits a member or an
    extension. -/
def fits (r : Registry) (c : Callable) (receiver : DataType) (args : List DataType) :
    StateM Memo Bool :=
  if c.isMember then pure (r.matchMember? c receiver args).isSome
  else if c.isExtension then
    match r.matchFree? c receiver args with
    | none => pure false
    | some fit => do
      let settled ← fit.settle r.satisfies
      pure settled.isSome
  else pure false

end Registry

end MethodResolution
