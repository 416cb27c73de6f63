/-
  Method resolution — bodies of constrained extensions are safe.

  The body of a constrained extension is checked once, against the constraint
  and before the types that will satisfy it are known.  A call may come much
  later, for a type that was declared in between, and rest on an answer that
  was kept before.

  * `Built.bodiesRequired`: what the body of a registered constrained extension
    uses is required of members, and stays so;
  * `hasMembers_of_satisfies`: a type that satisfies a constraint has all
    required members, also where the constraint requires free functions, too,
    and whatever answers are kept;
  * `exists_of_memberMeets`: a type that has a required member has a public one
    of this name that is not deleted;
  * `resolve_bodyRefs`: so a call that is bound to a constrained extension is
    made on a type that has what its body uses.
-/
import MethodResolution.Proofs.BoundCalls
import MethodResolution.Proofs.MemberRequirements

namespace MethodResolution

namespace Registry

variable {r r' : Registry}

/-! ## What a body may use -/

theorem requiresMember_iff {constraint : Key} {name : String} :
    r.requiresMember constraint name = true ↔ ∃ c, r.concept? constraint = some c ∧
      ∃ q ∈ c.requirements, q.mode = .member ∧ q.name = name := by
  rw [requiresMember, requirements]
  cases r.concept? constraint with
  | none => simp
  | some c => simp

theorem Accepts.requiresMember {d : Declaration} {k : Option Key} (h : r.Accepts d k r')
    {constraint : Key} {name : String} (hname : r.requiresMember constraint name = true) :
    r'.requiresMember constraint name = true := by
  obtain ⟨c, hc, hrequired⟩ := requiresMember_iff.1 hname
  exact requiresMember_iff.2 ⟨c, h.concept?_eq_some hc, hrequired⟩

/-- The body of a constrained extension uses required members alone. -/
def BodyRequired (r : Registry) (f : Callable) : Prop :=
  f.isExtension = true → ∀ constraint ∈ f.constraint, ∀ used ∈ f.bodyRefs,
    r.requiresMember constraint used.name = true

/-- What a constraint requires is required for good. -/
theorem BodyRequired.of_accepts {f : Callable} {d : Declaration} {k : Option Key}
    (h : r.BodyRequired f) (haccepts : r.Accepts d k r') : r'.BodyRequired f :=
  fun hext constraint hconstraint used hused =>
    haccepts.requiresMember (h hext constraint hconstraint used hused)

/-- A body that is not at fault uses required members alone, if the receiver is
    constrained. -/
theorem requiresMember_of_bodyError? {f : Callable} (h : r.bodyError? f = none) {p : Param}
    (hp : f.receiverParam? = some p) (htype : p.type.type = Key.constrained) {constraint : Key}
    (hconstraint : f.constraint = some constraint) :
    ∀ used ∈ f.bodyRefs, r.requiresMember constraint used.name = true := by
  intro used hused
  rw [bodyError?, hp, Option.bind_some, List.findSome?_eq_none_iff] at h
  have hfault := Option.map_eq_none_iff.1 (h used hused)
  rw [useFault?, if_pos htype, hconstraint, Option.bind_some, constrainedUseFault?] at hfault
  split_ifs at hfault with hrequired
  exact hrequired

/-- What is admitted as a free function uses required members alone. -/
theorem bodyRequired_of_freeError? {f : Callable} (h : r.freeError? f.asFree = none) :
    r.BodyRequired f.asFree := by
  intro hext constraint hconstraint
  have henrolled := enrolled_of_freeError? h
  obtain ⟨p, hp, htype⟩ := henrolled.constrained.1 ⟨constraint, hconstraint⟩
  have hbody : r.bodyError? f.asFree = none := by
    have hunfit := (freeError?_eq_none_iff.1 h).1
    rw [unfit?, if_pos hext, Option.orElse_eq_orElse, Option.orElse_eq_or,
      Option.or_eq_none_iff] at hunfit
    exact hunfit.2
  have hreceiver : f.asFree.receiverParam? = some p := by
    rw [Callable.receiverParam?, (henrolled.of_isExtension hext).1, Option.bind_some,
      ← List.head?_eq_getElem?, hp]
  exact requiresMember_of_bodyError? hbody hreceiver htype hconstraint

/-- **In a registry that was built, bodies of constrained extensions use required
    members alone.** -/
theorem Built.bodiesRequired (hr : r.Built) :
    ∀ k f, r.functions.get? k = some f → r.BodyRequired f :=
  hr.functions_induction (P := fun r _ f => r.BodyRequired f)
    (fun _ _ => bodyRequired_of_freeError?) fun _ _ _ _ _ _ haccepts h => h.of_accepts haccepts

/-! ## What a satisfied constraint promises -/

/-- If all tests of a list succeed, each did so in some state. -/
theorem exists_of_allM {α σ : Type} {p : α → StateM σ Bool} {xs : List α} {s : σ}
    (h : (xs.allM p s).1 = true) : ∀ x ∈ xs, ∃ s', (p x s').1 = true := by
  induction xs generalizing s with
  | nil => exact fun _ hx => absurd hx List.not_mem_nil
  | cons x xs ih =>
    have hcons : (x :: xs).allM p s = (match (p x s).1 with
      | true => xs.allM p
      | false => pure false) (p x s).2 := rfl
    rw [hcons] at h
    cases hx : (p x s).1 with
    | false =>
      rw [hx] at h
      cases h
    | true =>
      rw [hx] at h
      exact List.forall_mem_cons.2 ⟨⟨s, hx⟩, ih h⟩

/-- The type of the query has all members that the constraint requires. -/
def HasMembers (r : Registry) (q : Query) : Prop :=
  ∃ c, r.concept? q.constraint = some c ∧
    ∀ required ∈ c.requirements, required.mode = .member → r.memberMeets q.type required = true

/-- A kept yes rests on some answers to further queries, and on the members. -/
theorem Grounded.hasMembers {memo : Memo} (h : r.Grounded memo) {q : Query}
    (hq : memo.get? q = some true) : r.HasMembers q := by
  obtain ⟨c, hc⟩ := h.known hq
  obtain ⟨holds, hresult⟩ := h.exists_result hc hq
  rw [result_dialogue, List.all_eq_true] at hresult
  refine ⟨c, hc, fun required hrequired hmode => ?_⟩
  have hmeets := hresult required hrequired
  rw [meets, hmode] at hmeets
  exact hmeets

/-- A test that succeeds has tested the members, whoever answers the queries. -/
theorem hasMembers_of_conceptHolds {ask : Query → Evaluation Bool} {q : Query} {c : Concept}
    {s : Progress} (hc : r.concept? q.constraint = some c)
    (h : (r.conceptHolds ask c q.type s).1 = true) : r.HasMembers q := by
  refine ⟨c, hc, fun required hrequired hmode => ?_⟩
  obtain ⟨s', hmeets⟩ := exists_of_allM h required hrequired
  rw [requirementHolds, hmode] at hmeets
  exact hmeets

/-- **A type that satisfies a constraint has all required members**, whatever
    answers are kept. -/
theorem hasMembers_of_satisfies {q : Query} {memo : Memo}
    (hmemo : r.policy.memoize = true → r.Grounded memo) (h : (r.satisfies q memo).1 = true) :
    r.HasMembers q := by
  have hevaluate : (r.evaluate r.policy.depthLimit [] q { memo }).1 = true := h
  cases hready : r.ready? memo q with
  | some answer =>
    rw [evaluate_of_ready hready] at hevaluate
    obtain rfl : answer = true := hevaluate
    rw [ready?, Option.or_eq_some_iff] at hready
    rcases hready with hkept | ⟨-, hunknown⟩
    · rw [kept?] at hkept
      split_ifs at hkept with hm
      exact (hmemo hm).hasMembers hkept
    · split_ifs at hunknown
      cases hunknown
  | none =>
    obtain ⟨-, c, hc⟩ := ready?_eq_none_iff.1 hready
    cases hdepth : r.policy.depthLimit with
    | zero =>
      rw [hdepth, evaluate_of_cut hready (Or.inl rfl)] at hevaluate
      cases hevaluate
    | succ depth =>
      rw [hdepth, evaluate_of_run hready hc List.not_mem_nil, ← conceptHolds_eq_run] at hevaluate
      exact hasMembers_of_conceptHolds hc hevaluate

/-- A type that has a required member has a public one that is not deleted. -/
theorem exists_of_memberMeets {q : Requirement} (hq : q.mode = .member) {k : Key}
    (h : r.memberMeets k q = true) :
    ∃ m ∈ r.membersNamed k q.name, m.visibility.isPublic = true ∧ m.isDeleted = false := by
  obtain ⟨m, hbest, hmeets⟩ := (candidatesMeet_iff fun _ hc => (mem_memberCandidates hc).2.1).1 h
  refine ⟨m.callable, (mem_memberCandidates hbest.1).1, ?_⟩
  rw [chosenMeets, hq, Bool.and_eq_true, Bool.and_eq_true, Bool.not_eq_true'] at hmeets
  exact ⟨hmeets.1.2, hmeets.1.1⟩

/-! ## Calls bound to constrained extensions -/

/-- A constrained parameter zero leaves the question whether the type of the
    receiver satisfies the constraint. -/
theorem given_of_matchReceiver? {f : Callable} {receiver : DataType} {fit : Contingent Conversion}
    (h : r.matchReceiver? f receiver = some fit) {p : Param} (hp : f.params.head? = some p)
    (htype : p.type.type = Key.constrained) {constraint : Key}
    (hconstraint : f.constraint = some constraint) :
    fit.given = some ⟨constraint, receiver.type⟩ := by
  rw [matchReceiver?, hp, Option.bind_some, if_neg (not_not.2 htype), hconstraint] at h
  split_ifs at h
  cases h
  rfl

/-- **What the body of a constrained extension uses is there**, on every receiver
    that a call of it is bound to.  The type of the receiver has a public member
    of each name, and one that is not deleted. -/
theorem resolve_bodyRefs (r : Registry) (hr : r.Built) (is : List Inquiry) (call : CallSite)
    (bound : BoundCall) (h : (r.resolve call (r.answerAll is ∅).2).1 = .ok bound)
    (hext : bound.tier = .extension) :
    ∃ c, r.Chosen call (r.answerAll is ∅).2 bound c ∧
      r.functions.get? bound.key = some c.callable ∧
      (c.callable.constraint.isSome = true → ∀ used ∈ c.callable.bodyRefs,
        ∃ m ∈ r.membersNamed call.receiver.type used.name,
          m.visibility.isPublic = true ∧ m.isDeleted = false) := by
  obtain ⟨c, hchosen⟩ := exists_chosen h
  let good : Memo → Prop := fun memo => r.policy.memoize = true → r.Grounded memo
  have hgood : ∀ q memo, good memo → good (r.satisfies q memo).2 :=
    fun q _ hmemo hm => satisfies_grounded hm q (hmemo hm)
  have hstart : good (r.answerAll is ∅).2 := fun hm => answerAll_grounded hm is
  obtain ⟨-, hisext, hvisible, fit, hmatch, -, hanswered⟩ :=
    answered_of_mem_gatherExtensions good hgood hstart (hchosen.mem_gatherExtensions hext)
  obtain ⟨k, -, hk⟩ := List.mem_filterMap.1 hvisible
  have henrolled := hr.enrolled k _ hk
  refine ⟨c, hchosen, ?_, fun hconstrained used hused => ?_⟩
  · rw [hchosen.bound_eq, bind_key, Candidate.key, henrolled.key_eq, hk]
  · obtain ⟨constraint, hconstraint⟩ := Option.isSome_iff_exists.1 hconstrained
    obtain ⟨p, hp, htype⟩ := henrolled.constrained.1 ⟨constraint, hconstraint⟩
    obtain ⟨-, conversion, hreceiver, -, hgiven⟩ := matchFree?_eq_some hmatch
    rw [hgiven, given_of_matchReceiver? hreceiver hp htype hconstraint] at hanswered
    obtain ⟨memo, hmemo, hyes⟩ := hanswered _ rfl
    obtain ⟨concept, hconcept, hmembers⟩ := hasMembers_of_satisfies hmemo hyes
    -- The body was checked against the same requirements.
    have hrequired := hr.bodiesRequired k _ hk hisext constraint hconstraint used hused
    obtain ⟨concept', hconcept', q, hq, hmode, hname⟩ := requiresMember_iff.1 hrequired
    cases hconcept.symm.trans hconcept'
    exact hname ▸ exists_of_memberMeets hmode (hmembers q hq hmode)

/-- An extension of what can be listed; the body counts. -/
def report : Callable :=
  { (Callable.free (.global "report")).withReceiver (.pointer Key.constrained) with
    constraint := some ⟨3⟩, bodyRefs := [{ name := "count" }] }

/-- What can be listed can be counted.  The class comes after the extension, and
    has one member of the name to itself. -/
def reportedThings : Registry :=
  (Registry.initial {}).after
    [.primitives,
      .constraint { name := .global "Counts", key := ⟨2⟩,
                    signatures := [{ name := "count", onConst := true }] },
      .constraint { name := .global "Lists", key := ⟨3⟩, refines := [⟨2⟩] },
      .free report, .ofClass { name := .global "Thing", key := ⟨1⟩ },
      .member ⟨1⟩ { Callable.member ⟨1⟩ "count" with visibility := .private },
      .member ⟨1⟩ { Callable.member ⟨1⟩ "count" with isConst := true }]

def reportCall : CallSite := { receiver := .ofKey ⟨1⟩, name := "report" }

/-- The answer has been kept before. -/
def reportInquiries : List Inquiry := [.satisfies ⟨⟨3⟩, ⟨1⟩⟩]

def reportBound : BoundCall := .extension report.asFree.key ⟨1⟩ .addressOf .identity []

theorem resolve_reportCall_bodyRefs :
    reportedThings.Built ∧
      (reportedThings.resolve reportCall (reportedThings.answerAll reportInquiries ∅).2).1 =
        .ok reportBound ∧
      reportBound.tier = .extension ∧
      ∃ c, reportedThings.Chosen reportCall (reportedThings.answerAll reportInquiries ∅).2
          reportBound c ∧
        c.callable = report.asFree ∧
        ∀ used ∈ c.callable.bodyRefs, ∃ m ∈ reportedThings.membersNamed ⟨1⟩ used.name,
          m.visibility.isPublic = true ∧ m.isDeleted = false := by
  have hbuilt : reportedThings.Built := ⟨_, _, rfl⟩
  have hbound : (reportedThings.resolve reportCall
      (reportedThings.answerAll reportInquiries ∅).2).1 = .ok reportBound := by decide +kernel
  have hreport : reportedThings.functions.get? reportBound.key = some report.asFree := by
    decide +kernel
  obtain ⟨c, hchosen, hentry, hbody⟩ :=
    resolve_bodyRefs _ hbuilt reportInquiries _ _ hbound rfl
  have hcallable : c.callable = report.asFree := Option.some.inj (hentry.symm.trans hreport)
  exact ⟨hbuilt, hbound, rfl, c, hchosen, hcallable, hbody (hcallable ▸ rfl)⟩

end Registry

end MethodResolution
