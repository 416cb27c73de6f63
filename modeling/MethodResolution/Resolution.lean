/-
  Method resolution — resolving a call.

  A call is resolved in the first tier that has a candidate.  It is bound to
  the best candidate there, if there is a best one and the caller may use it;
  there is no way back from a tie or from an inaccessible member to another
  candidate.

  * `verdict` decides among the candidates of one tier;
  * `resolve` gathers the candidates of a call and decides.
-/
import MethodResolution.Binding
import MethodResolution.Gather

namespace MethodResolution

inductive ResolutionFault where
  | noViableCandidate
  /-- No candidate is better than all others; the front-runner comes first. -/
  | ambiguousCandidates (tier : Tier) (candidates : List CandidateInfo)
  | selectedButInaccessible (candidate : CandidateInfo) (reason : Access)
  deriving DecidableEq, Inhabited, Repr

/-- A call that is not bound, and why. -/
structure ResolutionError where
  call : CallSummary
  fault : ResolutionFault
  deriving DecidableEq, Inhabited, Repr

def ResolutionError.message (e : ResolutionError) : String :=
  "at " ++ e.call.span.text ++ ": " ++
    match e.fault with
    | .noViableCandidate => "no viable candidate for " ++ e.call.text
    | .ambiguousCandidates tier candidates =>
      "ambiguous " ++ tier.text ++ " call " ++ e.call.text ++ ": " ++
        ", ".intercalate (candidates.map (·.text))
    | .selectedButInaccessible candidate reason =>
      e.call.text ++ " selects " ++ reason.text ++ " member " ++ candidate.signature

abbrev Resolution := Except ResolutionError BoundCall

namespace Registry

/-- Decide a call among the candidates of one tier. -/
def verdict (r : Registry) (call : CallSite) (tier : Tier) (cs : List Candidate) : Resolution :=
  let fail (fault : ResolutionFault) : Resolution := .error ⟨r.summarize call, fault⟩
  match r.selectBest call.receiver cs with
  | none => fail .noViableCandidate
  | some (.ambiguous front tied) =>
    fail (.ambiguousCandidates tier ((front :: tied).map r.candidateInfo))
  | some (.unique chosen) =>
    if chosen.access.isAccessible then .ok (r.bind chosen call)
    else fail (.selectedButInaccessible (r.candidateInfo chosen) chosen.access)

/-- Resolve a call, given the answers to constraint queries kept so far. -/
def resolve (r : Registry) (call : CallSite) : StateM Memo Resolution := do
  let found ← r.gather call
  pure <|
    if found.members.isEmpty then r.verdict call .extension found.extensions
    else r.verdict call .member found.members

end Registry

end MethodResolution
