/-
  Method resolution — whether a type satisfies a constraint.

  A type satisfies a constraint if every requirement is met: the members of
  the required name, or the free functions visible from the constraint's
  namespace, that fit the required call have a single best one, and this one
  may be used by anyone and returns what is required (`requirementHolds`).

  Fitting a constrained free function asks a query again, so evaluation
  recurs.  A query that is asked while it is in progress, or when as many
  queries are in progress as the policy allows, is answered with no
  (`evaluate`).  Such an answer depends on where the query was asked; the
  evaluations around it are tainted by it.

  Answers of untainted evaluations are kept in a memo, if the policy says so.
  A kept answer is returned before anything else is looked at.
-/
import MethodResolution.Candidate

namespace MethodResolution

abbrev Memo := Table Query Bool

structure Progress where
  memo : Memo := ∅
  /-- Whether an answer was cut short since the innermost evaluation began. -/
  tainted : Bool := false
  deriving DecidableEq, Inhabited, Repr

abbrev Evaluation := StateM Progress

namespace Registry

/-! ## Requirements -/

/-- Whether the selected callable may be used for a requirement on the type
    `k` and returns what is required. -/
def chosenMeets (r : Registry) (q : Requirement) (k : Key) (chosen : Callable) : Bool :=
  !chosen.isDeleted && (q.mode == .free || chosen.visibility.isPublic) &&
    q.returns.all fun required => (r.conversion? chosen.returns (required.instantiate k)).isSome

/-- Whether the candidates for a requirement on the type `k` meet it. -/
def candidatesMeet (r : Registry) (q : Requirement) (k : Key) (cs : List Candidate) : Bool :=
  match r.selectBest (q.subjectFor k) cs with
  | some (.unique chosen) => r.chosenMeets q k chosen.callable
  | some (.ambiguous _ _) | none => false

/-- The free functions that fit a requirement of `c` on the type `k`, each
    with the query it hangs on. -/
def requirementCandidates (r : Registry) (c : Concept) (q : Requirement) (k : Key) :
    List (Contingent Candidate) :=
  r.freeCandidates (r.visibleFunctions c.name.path q.name) (q.subjectFor k) (q.paramsFor k) none

section
variable {m : Type → Type} [Monad m]

/-- Whether the type `k` meets the requirement `q` of `c`, where `ask` answers
    the queries that come up. -/
def requirementHolds (r : Registry) (ask : Query → m Bool) (c : Concept) (k : Key)
    (q : Requirement) : m Bool :=
  match q.mode with
  | .member =>
    pure (r.candidatesMeet q k (r.memberCandidates (q.subjectFor k) q.name (q.paramsFor k) none))
  | .free => do
    let cs ← Contingent.settleAll ask (r.requirementCandidates c q k)
    pure (r.candidatesMeet q k cs)

/-- Whether the type `k` meets every requirement of `c`, tested in order until
    one fails. -/
def conceptHolds (r : Registry) (ask : Query → m Bool) (c : Concept) (k : Key) : m Bool :=
  c.requirements.allM (r.requirementHolds ask c k)

end

/-! ## Evaluation -/

/-- The kept answer to a query, if answers are kept. -/
def kept? (r : Registry) (memo : Memo) (q : Query) : Option Bool :=
  if r.policy.memoize then memo.get? q else none

def cutShort : Evaluation Bool := fun s => (false, { s with tainted := true })

/-- Run the evaluation of the query `q` from an untainted start.  Its answer
    is kept if it was not tainted; around it, a taint stays. -/
def keeping (r : Registry) (q : Query) (body : Evaluation Bool) : Evaluation Bool := fun s =>
  let (answer, after) := body { s with tainted := false }
  let memo :=
    if r.policy.memoize && !after.tainted then after.memo.insert q answer else after.memo
  (answer, { memo, tainted := s.tainted || after.tainted })

/-- Answer the query `q` while the queries `pending` are in progress.  Further
    queries go to `deeper`, if there may be any. -/
def evaluateWith (r : Registry) (pending : List Query) (deeper : Option (Query → Evaluation Bool))
    (q : Query) : Evaluation Bool := fun s =>
  match r.kept? s.memo q with
  | some answer => (answer, s)
  | none =>
    match r.concept? q.constraint with
    | none => (false, s)
    | some c =>
      match deeper with
      | none => cutShort s
      | some ask =>
        if q ∈ pending then cutShort s
        else r.keeping q (r.conceptHolds ask c q.type) s

/-- Answer the query `q` while the queries `pending` are in progress and
    `depth` more may be. -/
def evaluate (r : Registry) : Nat → List Query → Query → Evaluation Bool
  | 0, pending => r.evaluateWith pending none
  | depth + 1, pending => fun q =>
    r.evaluateWith pending (some (r.evaluate depth (q :: pending))) q

/-- Whether a type satisfies a constraint, given the answers kept so far. -/
def satisfies (r : Registry) (q : Query) : StateM Memo Bool := fun memo =>
  let (answer, s) := r.evaluate r.policy.depthLimit [] q { memo }
  (answer, s.memo)

end Registry

end MethodResolution
