/-
  Method resolution — runs of inquiries.

  A fixed registry can be asked whether a type satisfies a constraint, whether
  a call fits a callable, which candidates a call has and what it resolves to.
  The answers to constraint queries that come up on the way are kept from one
  inquiry to the next.
-/
import MethodResolution.Resolution

namespace MethodResolution

/-- What a registry can be asked. -/
inductive Inquiry where
  | satisfies (q : Query)
  | fits (c : Callable) (receiver : DataType) (args : List DataType)
  | gather (call : CallSite)
  | resolve (call : CallSite)
  deriving DecidableEq, Inhabited, Repr

inductive Answer where
  | holds (yes : Bool)
  | gathered (found : Gathered)
  | resolved (outcome : Resolution)

namespace Registry

def answer (r : Registry) : Inquiry → StateM Memo Answer
  | .satisfies q => do
    let yes ← r.satisfies q
    pure (.holds yes)
  | .fits c receiver args => do
    let yes ← r.fits c receiver args
    pure (.holds yes)
  | .gather call => do
    let found ← r.gather call
    pure (.gathered found)
  | .resolve call => do
    let outcome ← r.resolve call
    pure (.resolved outcome)

def answerAll (r : Registry) : List Inquiry → StateM Memo (List Answer)
  | [] => pure []
  | i :: is => do
    let first ← r.answer i
    let rest ← r.answerAll is
    pure (first :: rest)

end Registry

end MethodResolution
