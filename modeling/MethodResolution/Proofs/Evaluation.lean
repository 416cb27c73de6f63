/-
  Method resolution — evaluation without a memo.

  * `Course`: the four courses that an evaluation can take.  Proofs about
    evaluation split into these and do not unfold it;
  * `SameEvidence`: what an evaluation looks at.  On the same evidence, all
    evaluations take the same course;
  * `judge`: the answer to a query as a plain recursion, which carries neither
    answers nor taints along; it is what evaluation answers where no answer is
    kept (`evaluate_of_not_memoize`);
  * `Stack`: the queries in progress are about one type, known, and pairwise
    different, so there are never more of them than constraints
    (`Stack.length_le`).  Where the policy allows that many, an evaluation is
    cut short by cycles alone.
-/
import MethodResolution.Proofs.Domination
import MethodResolution.Proofs.Tracking
import Mathlib.Data.List.Nodup
import Mathlib.Data.List.Perm.Subperm

namespace MethodResolution

namespace Registry

variable {r : Registry}

/-- The registry with the policy to keep no answers. -/
def unmemoized (r : Registry) : Registry := { r with policy := { r.policy with memoize := false } }

/-! ## The courses of an evaluation -/

/-- What answering a query comes to. -/
inductive Course (r : Registry) (pending : List Query) (q : Query) (s : Progress) :
    Nat → Bool × Progress → Prop
  /-- The answer was kept. -/
  | kept {depth answer} : r.kept? s.memo q = some answer → Course r pending q s depth (answer, s)
  /-- The constraint is not known. -/
  | unknown {depth} : r.concept? q.constraint = none → Course r pending q s depth (false, s)
  /-- No further query may be in progress, or this one is already. -/
  | cut {depth c} : r.concept? q.constraint = some c → depth = 0 ∨ q ∈ pending →
      Course r pending q s depth (false, { s with tainted := true })
  /-- The requirements are tested. -/
  | run {depth c} : r.kept? s.memo q = none → r.concept? q.constraint = some c → q ∉ pending →
      Course r pending q s (depth + 1)
        (r.keeping q (r.conceptHolds (r.evaluate depth (q :: pending)) c q.type) s)

theorem evaluateWith_course (depth : Nat) {pending : List Query} {q : Query} {s : Progress}
    {deeper : Option (Query → Evaluation Bool)}
    (h : deeper = none ∧ depth = 0 ∨
      ∃ n, deeper = some (r.evaluate n (q :: pending)) ∧ depth = n + 1) :
    Course r pending q s depth (r.evaluateWith pending deeper q s) := by
  rw [evaluateWith]
  split
  · next hkept => exact .kept hkept
  · next hkept =>
    split
    · next hc => exact .unknown hc
    · next c hc =>
      rcases h with ⟨rfl, rfl⟩ | ⟨n, rfl, rfl⟩
      · exact .cut hc (Or.inl rfl)
      · dsimp only
        split
        · next hmem => exact .cut hc (Or.inr hmem)
        · next hmem => exact .run hkept hc hmem

/-- **Every evaluation takes one of the four courses.** -/
theorem evaluate_course (depth : Nat) (pending : List Query) (q : Query) (s : Progress) :
    Course r pending q s depth (r.evaluate depth pending q s) := by
  cases depth with
  | zero => exact evaluateWith_course 0 (Or.inl ⟨rfl, rfl⟩)
  | succ depth => exact evaluateWith_course (depth + 1) (Or.inr ⟨depth, rfl, rfl⟩)

/-! ## What an evaluation looks at -/

/-- The registries agree on all that an evaluation looks at, apart from the
    policy: types, constraints, and the free functions that known constraints
    look for. -/
structure SameEvidence (r r' : Registry) : Prop where
  types_eq : r.types = r'.types
  concepts_eq : r.concepts = r'.concepts
  visible_eq : ∀ k c, r.concept? k = some c → ∀ q ∈ c.requirements, q.mode = .free →
    r.visibleFunctions c.name.path q.name = r'.visibleFunctions c.name.path q.name

/-- **On the same evidence, all evaluations take the same course**, if both
    registries keep answers or neither does. -/
theorem SameEvidence.evaluate_eq {r' : Registry} (h : r.SameEvidence r')
    (hm : r.policy.memoize = r'.policy.memoize) : r.evaluate = r'.evaluate := by
  have hkept : r.kept? = r'.kept? := by
    funext memo q
    rw [kept?, kept?, hm]
  have hkeeping : r.keeping = r'.keeping := by
    funext q body s
    simp only [keeping, hm]
  have hwith : ∀ pending deeper,
      r.evaluateWith pending deeper = r'.evaluateWith pending deeper := by
    intro pending deeper
    funext q s
    rw [evaluateWith, evaluateWith, ← hkept, ← hkeeping, ← concept?_congr h.concepts_eq]
    cases hc : r.concept? q.constraint with
    | none => rfl
    | some c =>
      simp only [conceptHolds_congr h.types_eq h.concepts_eq (h.visible_eq _ c hc)]
  funext depth
  induction depth with
  | zero => exact funext fun pending => hwith pending none
  | succ depth ih =>
    funext pending q
    rw [evaluate, evaluate, ih]
    exact congrFun (hwith pending _) q

theorem SameEvidence.satisfies_eq {r' : Registry} (h : r.SameEvidence r')
    (hp : r.policy = r'.policy) : r.satisfies = r'.satisfies := by
  funext q memo
  rw [satisfies, satisfies, h.evaluate_eq (congrArg Policy.memoize hp), hp]

/-! ## The plain answer -/

/-- The answer to the query `q` while the queries `pending` are in progress and
    `depth` more may be, if no answer is kept. -/
def judge (r : Registry) : Nat → List Query → Query → Bool
  | 0, _, _ => false
  | depth + 1, pending, q =>
    match r.concept? q.constraint with
    | none => false
    | some c =>
      decide (q ∉ pending) &&
        c.requirements.all (r.meets (r.judge depth (q :: pending)) c q.type)

/-- The answer to a query that is asked while none is in progress. -/
def holds (r : Registry) (q : Query) : Bool := r.judge r.policy.depthLimit [] q

theorem judge_of_unknown {depth : Nat} {pending : List Query} {q : Query}
    (h : r.concept? q.constraint = none) : r.judge depth pending q = false := by
  cases depth with
  | zero => rfl
  | succ depth => rw [judge, h]

theorem judge_of_cut {depth : Nat} {pending : List Query} {q : Query}
    (h : depth = 0 ∨ q ∈ pending) : r.judge depth pending q = false := by
  cases depth with
  | zero => rfl
  | succ depth =>
    have hmem : q ∈ pending := h.resolve_left (Nat.succ_ne_zero depth)
    rw [judge]
    split
    · rfl
    · simp [hmem]

theorem judge_succ {depth : Nat} {pending : List Query} {q : Query} {c : Concept}
    (hc : r.concept? q.constraint = some c) (hq : q ∉ pending) :
    r.judge (depth + 1) pending q =
      c.requirements.all (r.meets (r.judge depth (q :: pending)) c q.type) := by
  rw [judge, hc]
  simp [hq]

theorem kept?_of_not_memoize (h : r.policy.memoize = false) (memo : Memo) (q : Query) :
    r.kept? memo q = none := by
  rw [kept?, h]
  rfl

/-- **Where no answer is kept, evaluation gives the plain answer**, and the memo
    stays as it is. -/
theorem evaluate_of_not_memoize (h : r.policy.memoize = false) (depth : Nat)
    (pending : List Query) (q : Query) (s : Progress) :
    (r.evaluate depth pending q s).1 = r.judge depth pending q ∧
      (r.evaluate depth pending q s).2.memo = s.memo := by
  induction depth using Nat.strongRecOn generalizing pending q s with
  | ind depth ih =>
    have hcourse := evaluate_course (r := r) depth pending q s
    generalize r.evaluate depth pending q s = out at hcourse ⊢
    cases hcourse with
    | kept hkept => simp [kept?_of_not_memoize h] at hkept
    | unknown hc => exact ⟨(judge_of_unknown hc).symm, rfl⟩
    | cut hc hcut => exact ⟨(judge_of_cut hcut).symm, rfl⟩
    | @run n c _ hc hq =>
      have hask : ∀ q' : Query, Tracks (fun s' : Progress => s'.memo = s.memo) (fun _ => False)
          (r.evaluate n (q :: pending) q') (pure (r.judge n (q :: pending) q') : Id Bool) := by
        intro q'
        have hspec := ih n (Nat.lt_succ_self n) (q :: pending) q'
        exact ⟨fun s' hs' => (hspec s').2.trans hs', fun _ _ hlost => hlost,
          fun s' _ => Or.inr (congrArg pure (hspec s').1.symm)⟩
      have hbody := conceptHolds_tracks (r := r) (k := q.type) (fun q' _ => hask q') c
      rw [conceptHolds_pure] at hbody
      have hstart : ({ s with tainted := false } : Progress).memo = s.memo := rfl
      refine ⟨?_, ?_⟩
      · rw [judge_succ hc hq]
        exact ((hbody.answers _ hstart).resolve_left id).symm
      · simp only [keeping, h, Bool.false_and]
        exact hbody.good_after _ hstart

/-- An unknown constraint is not met, wherever the query is asked. -/
theorem evaluate_of_unknown (h : r.policy.memoize = false) (depth : Nat) (pending : List Query)
    {q : Query} (hc : r.concept? q.constraint = none) :
    r.evaluate depth pending q = pure false := by
  funext s
  have hcourse := evaluate_course (r := r) depth pending q s
  generalize r.evaluate depth pending q s = out at hcourse ⊢
  cases hcourse with
  | kept hkept => simp [kept?_of_not_memoize h] at hkept
  | unknown _ => rfl
  | cut hc' => simp [hc] at hc'
  | run _ hc' => simp [hc] at hc'

/-- Where no answer is kept, a query that is not cut short tests the
    requirements. -/
theorem evaluate_succ (h : r.policy.memoize = false) {depth : Nat} {pending : List Query}
    {q : Query} {c : Concept} (hc : r.concept? q.constraint = some c) (hq : q ∉ pending) :
    r.evaluate (depth + 1) pending q =
      r.keeping q (r.conceptHolds (r.evaluate depth (q :: pending)) c q.type) := by
  funext s
  have hcourse := evaluate_course (r := r) (depth + 1) pending q s
  generalize r.evaluate (depth + 1) pending q s = out at hcourse ⊢
  cases hcourse with
  | kept hkept => simp [kept?_of_not_memoize h] at hkept
  | unknown hc' => simp [hc] at hc'
  | cut _ hcut => exact absurd (hcut.resolve_left (Nat.succ_ne_zero depth)) hq
  | run _ hc' _ =>
    rw [hc] at hc'
    cases hc'
    rfl

/-- Where no answer is kept, keeping the answer of an evaluation that leaves
    the state alone leaves it alone. -/
theorem keeping_pure (h : r.policy.memoize = false) (q : Query) (answer : Bool) :
    r.keeping q (pure answer) = pure answer := by
  funext s
  obtain ⟨memo, tainted⟩ := s
  show r.keeping q (fun s => (answer, s)) ⟨memo, tainted⟩ = (answer, ⟨memo, tainted⟩)
  simp [keeping, h]

theorem satisfies_of_not_memoize (h : r.policy.memoize = false) (q : Query) :
    r.satisfies q = pure (r.holds q) := by
  funext memo
  obtain ⟨hanswer, hmemo⟩ := evaluate_of_not_memoize h r.policy.depthLimit [] q { memo }
  exact Prod.ext hanswer hmemo

/-! ## What the plain answer looks at -/

theorem tier_of_mem_standing {holds : Query → Bool} {cs : List Callable} {receiver : DataType}
    {args : List DataType} {caller : Option Key} :
    ∀ c ∈ Contingent.standing holds (r.freeCandidates cs receiver args caller),
      c.tier = .extension := by
  intro c hc
  obtain ⟨d, hd, rfl⟩ := List.mem_map.1 hc
  obtain ⟨callable, -, hfit⟩ := List.mem_filterMap.1 (List.mem_of_mem_filter hd)
  obtain ⟨fit, -, rfl⟩ := Option.map_eq_some_iff.1 hfit
  rfl

theorem candidatesMeet_iff {q : Requirement} {k : Key} {cs : List Candidate} {tier : Tier}
    (h : ∀ c ∈ cs, c.tier = tier) :
    r.candidatesMeet q k cs = true ↔
      ∃ c, Selection.Dominates (r.compareCandidates (q.subjectFor k)) cs c ∧
        r.chosenMeets q k c.callable = true := by
  simp only [← selectBest_eq_unique_iff h]
  rw [candidatesMeet]
  rcases r.selectBest (q.subjectFor k) cs with _ | ⟨c⟩ | ⟨front, tied⟩
  · simp
  · simp
  · simp

/-- The order of the candidates for a requirement does not matter. -/
theorem candidatesMeet_perm {q : Requirement} {k : Key} {cs cs' : List Candidate} {tier : Tier}
    (h : ∀ c ∈ cs, c.tier = tier) (hperm : cs.Perm cs') :
    r.candidatesMeet q k cs = r.candidatesMeet q k cs' := by
  have h' : ∀ c ∈ cs', c.tier = tier := fun c hc => h c (hperm.mem_iff.2 hc)
  rw [Bool.eq_iff_iff, candidatesMeet_iff h, candidatesMeet_iff h']
  simp only [Selection.dominates_iff_of_perm hperm]

section
variable {r' : Registry} (ht : r.types = r'.types) (hc : r.concepts = r'.concepts)
include ht hc

/-- A requirement is judged by types, constraints and, in free mode, the free
    functions of its name that the tested constraint sees. -/
theorem meets_eq_of_perm {c c' : Concept} {q : Requirement}
    (hv : q.mode = .free →
      (r.visibleFunctions c.name.path q.name).Perm (r'.visibleFunctions c'.name.path q.name))
    (holds : Query → Bool) (k : Key) : r.meets holds c k q = r'.meets holds c' k q := by
  unfold meets requirementCandidates
  rw [← memberCandidates_congr ht, ← freeCandidates_congr ht, ← candidatesMeet_congr ht hc]
  cases hmode : q.mode with
  | member => rfl
  | free =>
    have hperm := (hv hmode).filterMap fun f =>
      (r.matchFree? f (q.subjectFor k) (q.paramsFor k)).map fun fit =>
        fit.map fun fit => (⟨f, .extension, fit, r.access .extension f none⟩ : Candidate)
    exact candidatesMeet_perm tier_of_mem_standing (Contingent.standing_perm hperm)

variable (hv : ∀ path name, (r.visibleFunctions path name).Perm (r'.visibleFunctions path name))
include hv

theorem meets_congr : r.meets = r'.meets := by
  funext holds c k q
  exact meets_eq_of_perm ht hc (fun _ => hv _ _) holds k

/-- **The plain answer is judged by types, constraints and visible free
    functions**, and the order in which these are found does not matter. -/
theorem judge_congr : r.judge = r'.judge := by
  funext depth pending q
  induction depth generalizing pending q with
  | zero => rfl
  | succ depth ih =>
    rw [judge, judge, concept?_congr hc, meets_congr ht hc hv]
    simp only [funext fun pending => funext fun q => ih pending q]

end

/-! ## Queries in progress -/

/-- The queries in progress are about the type `k`, about known constraints,
    and pairwise different. -/
structure Stack (r : Registry) (k : Key) (pending : List Query) : Prop where
  nodup : pending.Nodup
  type_eq : ∀ p ∈ pending, p.type = k
  known : ∀ p ∈ pending, r.concepts.contains p.constraint = true

namespace Stack

theorem nil (k : Key) : r.Stack k [] :=
  ⟨List.nodup_nil, fun _ hp => absurd hp List.not_mem_nil, fun _ hp => absurd hp List.not_mem_nil⟩

variable {pending : List Query} {q : Query}

theorem cons {c : Concept} (h : r.Stack q.type pending) (hc : r.concept? q.constraint = some c)
    (hq : q ∉ pending) : r.Stack q.type (q :: pending) where
  nodup := List.nodup_cons.2 ⟨hq, h.nodup⟩
  type_eq := List.forall_mem_cons.2 ⟨rfl, h.type_eq⟩
  known := List.forall_mem_cons.2 ⟨(Table.contains_iff _ _).2 ⟨c, hc⟩, h.known⟩

/-- There are never more queries in progress than constraints. -/
theorem length_le {k : Key} (h : r.Stack k pending) : pending.length ≤ r.concepts.size := by
  have hnodup : (pending.map (·.constraint)).Nodup := by
    refine List.Nodup.map_on (fun p hp p' hp' heq => ?_) h.nodup
    have htype : p.type = p'.type := (h.type_eq p hp).trans (h.type_eq p' hp').symm
    cases p
    cases p'
    exact Query.mk.injEq .. ▸ ⟨heq, htype⟩
  have hsub : pending.map (·.constraint) ⊆ r.concepts.keys := by
    intro x hx
    obtain ⟨p, hp, rfl⟩ := List.mem_map.1 hx
    exact (Table.contains_iff_mem_keys _ _).1 (h.known p hp)
  simpa [Table.keys, Table.size] using (hnodup.subperm hsub).length_le

/-- Where as many queries are in progress as there are constraints, a further
    one is in progress already. -/
theorem mem_of_full {c : Concept} (h : r.Stack q.type pending)
    (hc : r.concept? q.constraint = some c) (hfull : r.concepts.size ≤ pending.length) :
    q ∈ pending := by
  by_contra hq
  have hle := (h.cons hc hq).length_le
  rw [List.length_cons] at hle
  omega

end Stack

end Registry

end MethodResolution
