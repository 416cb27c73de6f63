/-
  Method resolution — required members can be called.

  Whether a type has a required member is decided twice: the evaluation of a
  constraint takes the best member that fits and looks whether it is public and
  not deleted, and the resolution of a call asks whether the caller may use the
  member that it selects.  The two agree, so what a constraint promises can be
  called by anyone.

  * `satisfies_of_members`: a constraint that only requires members puts no
    query, so its answer is neither cut short nor changed by what is kept;
  * `bindsMember_iff`: a call is bound to the best member that it fits, if the
    caller may use it.  There are no other ways to be bound to a member
    (`resolve_eq_ok_member_iff`);
  * `memberMeets_iff`: a requirement is met if the required call is bound to a
    member that returns what is required;
  * `satisfies_iff_bindsMember`: so a type satisfies a constraint on members
    exactly if all required calls are.
-/
import MethodResolution.Proofs.KeptAnswers
import MethodResolution.Proofs.TwoTiers

namespace MethodResolution

/-- The call that a signature requires to work on the type `k`, from outside of
    all classes. -/
def Signature.callOn (s : Signature) (k : Key) (path : List String) (span : Span) : CallSite :=
  { receiver := s.subjectFor k, name := s.name, args := s.paramsFor k, path, span }

namespace Registry

variable {r : Registry}

/-! ## Constraints on members -/

/-- Whether the type `k` has the member that `q` requires. -/
def memberMeets (r : Registry) (k : Key) (q : Requirement) : Bool :=
  r.candidatesMeet q k (r.memberCandidates (q.subjectFor k) q.name (q.paramsFor k) none)

/-- A kept answer is what its dialogue comes to with some answers. -/
theorem Grounded.exists_result {memo : Memo} (h : r.Grounded memo) {q : Query} {c : Concept}
    {answer : Bool} (hc : r.concept? q.constraint = some c) (hq : memo.get? q = some answer) :
    ∃ holds, (r.dialogue c q.type).result holds = answer := by
  induction h with
  | empty => cases hq
  | @keep memo q' c' _ _ hc' _ ih =>
    rw [Table.get?_insert] at hq
    split_ifs at hq with heq
    · subst heq
      cases hc.symm.trans hc'
      exact ⟨memo.answers, Option.some.inj hq⟩
    · exact ih hq

section
variable {c : Concept} (hmode : ∀ q ∈ c.requirements, q.mode = .member)
include hmode

/-- The test of a constraint on members puts no query. -/
theorem conceptHolds_of_members {m : Type → Type} [Monad m] [LawfulMonad m]
    (ask : Query → m Bool) (k : Key) :
    r.conceptHolds ask c k = pure (c.requirements.all (r.memberMeets k)) := by
  rw [conceptHolds]
  generalize c.requirements = qs at hmode
  induction qs with
  | nil => rfl
  | cons q qs ih =>
    obtain ⟨hq, hqs⟩ := List.forall_mem_cons.1 hmode
    have hfirst : r.requirementHolds ask c k q = pure (r.memberMeets k q) := by
      rw [requirementHolds, hq]
      rfl
    rw [List.allM, hfirst, pure_bind, List.all_cons]
    cases r.memberMeets k q with
    | true => exact ih hqs
    | false => rfl

/-- Whatever the answers to queries are, the dialogue comes to this test. -/
theorem result_dialogue_of_members (holds : Query → Bool) (k : Key) :
    (r.dialogue c k).result holds = c.requirements.all (r.memberMeets k) := by
  have hrun : (pure ((r.dialogue c k).result holds) : Id Bool) =
      pure (c.requirements.all (r.memberMeets k)) := by
    rw [← Dialogue.run_holds, ← conceptHolds_eq_run, conceptHolds_of_members hmode]
  exact hrun

/-- **A constraint on members is judged by members alone**, after any
    inquiries, if there may be a query at all. -/
theorem satisfies_of_members (hlimit : 1 ≤ r.policy.depthLimit) {q : Query}
    (hc : r.concept? q.constraint = some c) (is : List Inquiry) :
    (r.satisfies q (r.answerAll is ∅).2).1 = c.requirements.all (r.memberMeets q.type) := by
  obtain ⟨depth, hdepth⟩ := Nat.exists_eq_add_of_le' hlimit
  have hgrounded : r.policy.memoize = true → r.Grounded (r.answerAll is ∅).2 :=
    fun hm => answerAll_grounded hm is
  generalize (r.answerAll is ∅).2 = memo at hgrounded ⊢
  have hsatisfies : (r.satisfies q memo).1 = (r.evaluate (depth + 1) [] q { memo }).1 := by
    rw [satisfies, hdepth]
    rfl
  rw [hsatisfies]
  cases hready : r.ready? memo q with
  | none =>
    rw [evaluate_of_run hready hc List.not_mem_nil, ← conceptHolds_eq_run,
      conceptHolds_of_members hmode]
    rfl
  | some answer =>
    rw [evaluate_of_ready hready]
    cases hm : r.policy.memoize with
    | false =>
      rw [ready?_eq_none_iff.2 ⟨kept?_of_not_memoize hm memo q, c, hc⟩] at hready
      cases hready
    | true =>
      rcases ready?_eq_some hm hready with hkept | ⟨-, hunknown, -⟩
      -- The answer rests on answers that are not known here, and does not need them.
      · obtain ⟨holds, hanswer⟩ := (hgrounded hm).exists_result hc hkept
        rw [← hanswer, result_dialogue_of_members hmode]
      · cases hc.symm.trans hunknown

end

/-! ## Calls bound to members -/

/-- The call is bound to the member `m`, the best one that it fits. -/
structure BindsMember (r : Registry) (call : CallSite) (memo : Memo) (m : Candidate) : Prop where
  best : r.Best call (r.fittingMembers call) m
  resolve_eq : (r.resolve call memo).1 = .ok (r.bind m call)
  tier_eq : (r.bind m call).tier = .member

section
variable {call : CallSite} {memo : Memo} {m : Candidate}

/-- Where members fit, the verdict on them is the outcome. -/
theorem resolve_of_mem_fittingMembers (hm : m ∈ r.fittingMembers call) (memo : Memo) :
    (r.resolve call memo).1 = r.verdict call .member (r.fittingMembers call) := by
  rw [← gatherMembers_eq_fittingMembers] at hm ⊢
  rw [resolve_of_members (List.ne_nil_of_mem hm)]

/-- **A call is bound to the best member that it fits**, if the caller may use
    it, whatever answers are kept. -/
theorem bindsMember_iff : r.BindsMember call memo m ↔
    r.Best call (r.fittingMembers call) m ∧ m.access.isAccessible = true := by
  have htier : ∀ c ∈ r.fittingMembers call, c.tier = .member := tier_of_mem_fittingMembers
  constructor
  · rintro ⟨hbest, hresolve, -⟩
    rw [resolve_of_mem_fittingMembers hbest.1] at hresolve
    -- The verdict found some best member, and there is only one.
    obtain ⟨m', hbest', haccess, -⟩ := (verdict_eq_ok_iff htier).1 hresolve
    have heq : m = m' := hbest.unique (compareCandidates_antisymmetric _ htier) hbest'
    exact ⟨hbest, heq ▸ haccess⟩
  · rintro ⟨hbest, haccess⟩
    refine ⟨hbest, ?_, ?_⟩
    · rw [resolve_of_mem_fittingMembers hbest.1]
      exact (verdict_eq_ok_iff htier).2 ⟨m, hbest, haccess, rfl⟩
    · rw [bind_tier, htier m hbest.1]

/-- There is no other way to be bound to a member. -/
theorem resolve_eq_ok_member_iff {bound : BoundCall} :
    (r.resolve call memo).1 = .ok bound ∧ bound.tier = .member ↔
      ∃ m, r.BindsMember call memo m ∧ bound = r.bind m call := by
  constructor
  · rintro ⟨hresolve, htier⟩
    obtain ⟨m, hbest, rfl⟩ := dominates_of_resolve_eq_ok hresolve
    rw [candidates] at hbest
    split_ifs at hbest with hmembers
    · rw [bind_tier, (mem_gatherExtensions hbest.1).1] at htier
      cases htier
    · rw [gatherMembers_eq_fittingMembers] at hbest
      exact ⟨m, ⟨hbest, hresolve, htier⟩, rfl⟩
  · rintro ⟨m, hm, rfl⟩
    exact ⟨hm.resolve_eq, hm.tier_eq⟩

theorem access_of_mem_fittingMembers (hm : m ∈ r.fittingMembers call) :
    m.callable.isMember = true ∧ m.access = r.memberAccess m.callable call.caller := by
  rw [← gatherMembers_eq_fittingMembers] at hm
  obtain ⟨-, hmatch, haccess⟩ := mem_gatherMembers hm
  exact ⟨(matchMember?_eq_some hmatch).1, haccess⟩

end

/-- Outside of all classes, a member may be used if it is public and not
    deleted. -/
theorem isAccessible_memberAccess_none {f : Callable} (hf : f.isMember = true) :
    (r.memberAccess f none).isAccessible = (!f.isDeleted && f.visibility.isPublic) := by
  obtain ⟨owner, howner⟩ := Option.isSome_iff_exists.1 hf
  rw [memberAccess, howner]
  cases f.isDeleted with
  | true => rfl
  | false => cases f.visibility <;> rfl

/-! ## Requirements and calls -/

/-- **A required member can be called.**  A requirement is met exactly if the
    required call is bound to a member that returns what is required. -/
theorem memberMeets_iff {q : Requirement} (hq : q.mode = .member) {k : Key} {path : List String}
    {span : Span} {memo : Memo} : r.memberMeets k q = true ↔
      ∃ m, r.BindsMember (q.callOn k path span) memo m ∧ ∀ required ∈ q.returns,
        (r.conversion? m.callable.returns (required.instantiate k)).isSome := by
  have hcandidates : r.memberCandidates (q.subjectFor k) q.name (q.paramsFor k) none =
      r.fittingMembers (q.callOn k path span) := by
    rw [← gatherMembers_eq_fittingMembers]
    rfl
  rw [memberMeets, hcandidates, candidatesMeet_iff tier_of_mem_fittingMembers]
  refine exists_congr fun m => ?_
  rw [bindsMember_iff, and_assoc]
  refine and_congr_right fun hbest => ?_
  obtain ⟨hmember, haccess⟩ := access_of_mem_fittingMembers hbest.1
  rw [haccess]
  show r.chosenMeets q k m.callable = true ↔
    (r.memberAccess m.callable none).isAccessible = true ∧ _
  rw [isAccessible_memberAccess_none hmember, chosenMeets, hq, Bool.and_eq_true]
  refine and_congr Iff.rfl ?_
  rw [Option.all_eq_true]
  rfl

/-- **A type satisfies a constraint on members exactly if all required calls are
    bound to members** that return what is required. -/
theorem satisfies_iff_bindsMember (r : Registry) (hlimit : 1 ≤ r.policy.depthLimit)
    (constraint k : Key) (c : Concept) (hc : r.concept? constraint = some c)
    (hmode : ∀ q ∈ c.requirements, q.mode = .member) (is : List Inquiry) (path : List String)
    (span : Span) (memo : Memo) :
    (r.satisfies ⟨constraint, k⟩ (r.answerAll is ∅).2).1 = true ↔
      ∀ q ∈ c.requirements, ∃ m, r.BindsMember (q.callOn k path span) memo m ∧
        ∀ required ∈ q.returns,
          (r.conversion? m.callable.returns (required.instantiate k)).isSome := by
  rw [satisfies_of_members hmode hlimit hc, List.all_eq_true]
  exact forall₂_congr fun q hq => memberMeets_iff (hmode q hq)

/-- A constraint on two members, one of which returns a number and works on a
    const object. -/
def counts : Concept where
  name := .global "Counts"
  key := ⟨3⟩
  signatures := [
    { name := "count", returns := some (.ofKey Primitive.double.key), onConst := true },
    { name := "join", params := [.constReference Key.self] }]
  requirements := [
    { name := "count", returns := some (.ofKey Primitive.double.key), onConst := true,
      mode := .member },
    { name := "join", params := [.constReference Key.self], mode := .member }]

/-- A member `join` that takes an object of its own class. -/
def joinOf (k : Key) : Callable :=
  { Callable.member k "join" with params := [⟨.constReference k, false⟩] }

/-- Two classes with both members.  One of them keeps a member to itself. -/
def countedThings : Registry :=
  (Registry.initial {}).after
    [.primitives, .ofClass { name := .global "Thing", key := ⟨1⟩ },
      .ofClass { name := .global "Box", key := ⟨2⟩ }, .constraint counts.toConstraint,
      .member ⟨1⟩ { Callable.member ⟨1⟩ "count" with
        isConst := true, returns := .ofKey Primitive.int32.key },
      .member ⟨1⟩ (joinOf ⟨1⟩),
      .member ⟨2⟩ { Callable.member ⟨2⟩ "count" with
        isConst := true, returns := .ofKey Primitive.int32.key, visibility := .private },
      .member ⟨2⟩ (joinOf ⟨2⟩)]

/-- The answers have been kept before. -/
def countInquiries : List Inquiry := [.satisfies ⟨⟨3⟩, ⟨1⟩⟩, .satisfies ⟨⟨3⟩, ⟨2⟩⟩]

theorem satisfies_counts_iff_bindsMember :
    1 ≤ countedThings.policy.depthLimit ∧ countedThings.concept? ⟨3⟩ = some counts ∧
      (∀ q ∈ counts.requirements, q.mode = .member) ∧
      (∀ q ∈ counts.requirements, ∃ m, countedThings.BindsMember (q.callOn ⟨1⟩ [] {}) ∅ m ∧
        ∀ required ∈ q.returns,
          (countedThings.conversion? m.callable.returns (required.instantiate ⟨1⟩)).isSome) ∧
      ¬ ∀ q ∈ counts.requirements, ∃ m, countedThings.BindsMember (q.callOn ⟨2⟩ [] {}) ∅ m ∧
        ∀ required ∈ q.returns,
          (countedThings.conversion? m.callable.returns (required.instantiate ⟨2⟩)).isSome := by
  have hlimit : 1 ≤ countedThings.policy.depthLimit := by decide +kernel
  have hc : countedThings.concept? ⟨3⟩ = some counts := by decide +kernel
  have hmode : ∀ q ∈ counts.requirements, q.mode = .member := by decide
  have hthing : (countedThings.satisfies ⟨⟨3⟩, ⟨1⟩⟩
      (countedThings.answerAll countInquiries ∅).2).1 = true := by decide +kernel
  have hbox : ¬ (countedThings.satisfies ⟨⟨3⟩, ⟨2⟩⟩
      (countedThings.answerAll countInquiries ∅).2).1 = true := by decide +kernel
  exact ⟨hlimit, hc, hmode,
    (satisfies_iff_bindsMember _ hlimit _ _ _ hc hmode countInquiries _ _ _).1 hthing,
    fun h => hbox ((satisfies_iff_bindsMember _ hlimit _ _ _ hc hmode countInquiries _ _ _).2 h)⟩

end Registry

end MethodResolution
