/-
  Method resolution — candidates and their ranking.

  A candidate is a callable that fits a call.  Candidates are ranked by the
  cost of their arguments and then by how many arguments are passed as they
  are.  What decides after that depends on the tier:

  * of two members, on a receiver that may change, the non-const one is better;
  * of two extensions, one for a known type is better than a constrained one,
    and of two constrained ones that with the stricter constraint; at last the
    conversion of the receiver decides.

  A constraint is stricter than another if it requires all that the other does
  and more (`subsumes`).  Access takes no part in the ranking.
-/
import MethodResolution.Matching
import MethodResolution.Registry.Text
import MethodResolution.Selection

namespace MethodResolution

/-- Members are tried first; extensions only where no member fits. -/
inductive Tier where
  | member
  | extension
  deriving DecidableEq, Inhabited, Repr

def Tier.text : Tier → String
  | member => "member"
  | extension => "extension"

/-- A callable that fits a call. -/
structure Candidate where
  callable : Callable
  tier : Tier
  fit : Match
  access : Access
  deriving DecidableEq, Inhabited, Repr

/-- What a diagnostic says about a candidate. -/
structure CandidateInfo where
  key : Key
  signature : String
  tier : Tier
  access : Access
  deriving DecidableEq, Inhabited, Repr

def CandidateInfo.text (c : CandidateInfo) : String := c.signature ++ " [" ++ c.tier.text ++ "]"

namespace Candidate

def key (c : Candidate) : Key := c.callable.key

/-- The constraint that takes part in the ranking. -/
def constraint (c : Candidate) : Option Key :=
  match c.tier with
  | .member => none
  | .extension => c.callable.constraint

end Candidate

namespace Registry

/-- What a diagnostic says about a candidate. -/
def candidateInfo (r : Registry) (c : Candidate) : CandidateInfo :=
  ⟨c.key, r.signatureText c.callable, c.tier, c.access⟩

/-! ## Access -/

/-- Whether code inside the class `caller`, or outside of any, may use the
    member `c`. -/
def memberAccess (r : Registry) (c : Callable) (caller : Option Key) : Access :=
  if c.isDeleted then .deleted
  else
    match c.owner with
    | none => .accessible
    | some owner =>
      let allowed :=
        match c.visibility with
        | .public => true
        | .private => caller == some owner
        | .protected => caller.any fun caller => r.derivesFrom caller owner
      if allowed then .accessible else .hidden c.visibility

/-- Whether code inside the class `caller`, or outside of any, may use a
    callable of the given tier.  Extensions are open to all. -/
def access (r : Registry) (tier : Tier) (c : Callable) (caller : Option Key) : Access :=
  match tier with
  | .member => r.memberAccess c caller
  | .extension => .accessible

/-! ## Ranking -/

/-- Whether the constraint `a` requires all that `b` does and more. -/
def subsumes (r : Registry) (a b : Key) : Bool :=
  (r.requirements b).length < (r.requirements a).length &&
    (r.requirements b).all (· ∈ r.requirements a)

def compareConstraints (r : Registry) : Option Key → Option Key → Ordering
  | none, none => .eq
  | none, some _ => .lt
  | some _, none => .gt
  | some a, some b =>
    if r.subsumes a b then .lt else if r.subsumes b a then .gt else .eq

def compareArgs (a b : Match) : Ordering :=
  (compare a.cost b.cost).then (compare b.exactCount a.exactCount)

/-- Compare two candidates for a call with the given receiver; the better one
    is less. -/
def compareCandidates (r : Registry) (receiver : DataType) (a b : Candidate) : Ordering :=
  (compareArgs a.fit b.fit).then <|
    match a.tier with
    | .member => if receiver.isConst then .eq else compare a.callable.isConst b.callable.isConst
    | .extension =>
      (r.compareConstraints a.constraint b.constraint).then
        (compare a.fit.receiverCost b.fit.receiverCost)

def selectBest (r : Registry) (receiver : DataType) (cs : List Candidate) :
    Option (Selection Candidate) :=
  Selection.best (r.compareCandidates receiver) cs

/-! ## Finding candidates -/

/-- The members that a name means on the type of the receiver and that the
    call fits. -/
def memberCandidates (r : Registry) (receiver : DataType) (name : String) (args : List DataType)
    (caller : Option Key) : List Candidate :=
  (r.membersNamed receiver.type name).filterMap fun c =>
    (r.matchMember? c receiver args).map fun fit =>
      ⟨c, .member, fit, r.access .member c caller⟩

/-- Those of the given free functions that the call fits, each with the query
    it hangs on. -/
def freeCandidates (r : Registry) (cs : List Callable) (receiver : DataType)
    (args : List DataType) (caller : Option Key) : List (Contingent Candidate) :=
  cs.filterMap fun c =>
    (r.matchFree? c receiver args).map fun fit =>
      fit.map fun fit => ⟨c, .extension, fit, r.access .extension c caller⟩

end Registry

end MethodResolution
