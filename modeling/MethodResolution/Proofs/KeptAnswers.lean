/-
  Method resolution — what kept answers are worth under any limit.

  The limit cuts an evaluation short that goes too deep, and a kept answer is
  returned before the limit is looked at.  So with a low limit an earlier query
  can make a later one succeed.  Still nothing wrong is kept, and nothing else
  than the limit lets the past shine through.

  * `answerAll_sound`: under any limit, a kept answer is the plain one where the
    limit leaves room for all constraints, and no cycle is on its way;
  * `evaluate_follows`: of two evaluations of a query, the later one keeps what
    the earlier one keeps, and gives the same answer unless the limit cuts the
    earlier one short;
  * `satisfies_answerAll`: so a query that the limit does not cut short as a
    first one is answered alike after any inquiries;
  * `satisfies_spins_depends_on_inquiries`: where the limit does cut it short,
    the answer may depend on the inquiries before it.
-/
import MethodResolution.Proofs.Grounded
import MethodResolution.Proofs.Registration
import MethodResolution.Proofs.Transparency

namespace MethodResolution

namespace Registry

variable {r : Registry}

/-! ## Soundness -/

/-- **Kept answers are plain answers**, under any limit.  Whatever a run of
    inquiries keeps is the answer without a memo, where the limit leaves room
    for all constraints; and the evaluation that gives it meets no cycle. -/
theorem answerAll_sound (r : Registry) (is : List Inquiry) (q : Query) (answer : Bool)
    (limit : Nat) (hm : r.policy.memoize = true)
    (hkept : (r.answerAll is ∅).2.get? q = some answer) (hlimit : r.concepts.size ≤ limit) :
    (r.unmemoized.evaluate limit [] q {}).1 = answer ∧ r.unmemoized.cuts limit q = [] := by
  have hsound : r.Sound [] (r.answerAll is ∅).2 := answerAll_consistent is consistent_empty hm
  have heval := hsound.settled q answer hkept limit [] (.nil _) (by simpa using hlimit)
    hsound.avoids
  refine ⟨by rw [heval]; rfl, ?_⟩
  have huntainted : (r.unmemoized.evaluate limit [] q {}).2.tainted = false := by rw [heval]; rfl
  have hcuts := tainted_evaluate_iff r.unmemoized limit [] q {}
  rw [huntainted] at hcuts
  simpa [cuts] using hcuts

/-- Three constraints on one type, where only two queries may be in progress:
    `Spins` hangs on `Rolls`, and that on `Rests`, which everything meets. -/
def shallowThings : Registry :=
  (Registry.initial { depthLimit := 2 }).after
    [.primitives, .ofClass { name := .global "Thing", key := ⟨1⟩ },
      .constraint { name := .global "Rests", key := ⟨2⟩ },
      .constraint { name := .global "Rolls", key := ⟨3⟩, mode := .free,
                    signatures := [{ name := "roll" }] },
      .constraint { name := .global "Spins", key := ⟨4⟩, mode := .free,
                    signatures := [{ name := "spin" }] },
      .free { (Callable.free (.global "roll")).withReceiver (.pointer Key.constrained) with
        constraint := some ⟨2⟩ },
      .free { (Callable.free (.global "spin")).withReceiver (.pointer Key.constrained) with
        constraint := some ⟨3⟩ }]

/-- Inquiries that go beyond the limit at first, and then find a kept answer
    there. -/
def shallowInquiries : List Inquiry :=
  [.satisfies ⟨⟨4⟩, ⟨1⟩⟩, .satisfies ⟨⟨2⟩, ⟨1⟩⟩, .satisfies ⟨⟨4⟩, ⟨1⟩⟩]

/-- The answer on `Rolls` was kept while `Spins` was in progress, and the limit
    had been reached. -/
theorem answerAll_shallowInquiries_sound :
    shallowThings.policy.memoize = true ∧
      (shallowThings.answerAll shallowInquiries ∅).2.get? ⟨⟨3⟩, ⟨1⟩⟩ = some true ∧
      shallowThings.concepts.size ≤ 3 ∧
      (shallowThings.unmemoized.evaluate 3 [] ⟨⟨3⟩, ⟨1⟩⟩ {}).1 = true ∧
      shallowThings.unmemoized.cuts 3 ⟨⟨3⟩, ⟨1⟩⟩ = [] := by
  have hkept : (shallowThings.answerAll shallowInquiries ∅).2.get? ⟨⟨3⟩, ⟨1⟩⟩ = some true := by
    decide +kernel
  have hlimit : shallowThings.concepts.size ≤ 3 := by decide +kernel
  exact ⟨by decide +kernel, hkept, hlimit,
    answerAll_sound _ _ _ _ _ (by decide +kernel) hkept hlimit⟩

/-! ## Evaluations that follow others -/

/-- The state `s'` belongs to a later evaluation than `s`, with the same queries
    in progress: it keeps what `s` keeps, and is not tainted if `s` is not. -/
structure Follows (r : Registry) (pending : List Query) (s s' : Progress) : Prop where
  grounded : r.Grounded s'.memo
  avoids : s'.memo.Avoids pending
  within : s.memo.Within s'.memo
  tainted : s'.tainted = true → s.tainted = true

section
variable (hm : r.policy.memoize = true) {depth : Nat} {pending : List Query} {q : Query}
  {s s' : Progress}
include hm

/-- Where the later evaluation finds a kept answer, the earlier one comes to it,
    unless the limit cuts it short. -/
theorem evaluate_follows_of_kept (h : r.Follows pending s s') {answer : Bool}
    (hkept : s'.memo.get? q = some answer)
    (hlimit : ∀ cut ∈ r.cutsFrom depth pending q s, cut.reason ≠ .limit) :
    (r.evaluate depth pending q s).1 = answer ∧
      r.Follows pending (r.evaluate depth pending q s).2 s' := by
  obtain ⟨hanswer, hwithin⟩ := foundAgain_of_grounded hm h.grounded h.grounded .refl
    depth pending q answer s h.within hkept h.avoids hlimit
  refine ⟨hanswer, h.grounded, h.avoids, hwithin, fun htainted => ?_⟩
  exact (tainted_evaluate_iff r depth pending q s).2 (Or.inl (h.tainted htainted))

/-- If the dialogues of both evaluations end alike, then so do the evaluations,
    each of which keeps its answer if it was not tainted. -/
theorem keeping_follows {body body' : Evaluation Bool} (h : r.Follows pending s s')
    (hlater : r.GrowsTo pending s' (r.keeping q body' s').2)
    (hbody : (body { s with tainted := false }).1 = (body' { s' with tainted := false }).1 ∧
      r.Follows (q :: pending) (body { s with tainted := false }).2
        (body' { s' with tainted := false }).2) :
    (r.keeping q body s).1 = (r.keeping q body' s').1 ∧
      r.Follows pending (r.keeping q body s).2 (r.keeping q body' s').2 := by
  obtain ⟨hanswer, hfollows⟩ := hbody
  refine ⟨hanswer, hlater.grounded, hlater.avoids, ?_, ?_⟩
  · have hnew := hfollows.avoids q List.mem_cons_self
    rw [keeping_memo, keeping_memo, hanswer, hm]
    cases hfirst : (body { s with tainted := false }).2.tainted with
    | true =>
      cases (body' { s' with tainted := false }).2.tainted with
      | true => exact hfollows.within
      | false => exact hfollows.within.trans (.insert hnew)
    | false =>
      have hsecond : (body' { s' with tainted := false }).2.tainted = false := by
        rw [← Bool.not_eq_true]
        intro htainted
        rw [hfollows.tainted htainted] at hfirst
        cases hfirst
      rw [hsecond]
      exact hfollows.within.insert_insert
  · rw [keeping_tainted, keeping_tainted, Bool.or_eq_true, Bool.or_eq_true]
    exact Or.imp h.tainted hfollows.tainted

end

/-- **A later evaluation answers alike**, unless the limit cuts the earlier one
    short.  Cycles may cut both short; they do so in the same places, for what
    is in progress is not kept. -/
theorem evaluate_follows (hm : r.policy.memoize = true) (depth : Nat) (pending : List Query)
    (q : Query) (s s' : Progress) (h : r.Follows pending s s')
    (hlimit : ∀ cut ∈ r.cutsFrom depth pending q s, cut.reason ≠ .limit) :
    (r.evaluate depth pending q s).1 = (r.evaluate depth pending q s').1 ∧
      r.Follows pending (r.evaluate depth pending q s).2 (r.evaluate depth pending q s').2 := by
  induction depth, pending, q, s using evaluate_induction (r := r) generalizing s' with
  | ready depth pending q s answer hready =>
    have hready' := ready?_of_within hm h.grounded h.within hready
    rw [evaluate_of_ready hready, evaluate_of_ready hready']
    exact ⟨rfl, h⟩
  | cycle depth pending q s hready hq =>
    obtain ⟨-, c, hc⟩ := ready?_eq_none_iff.1 hready
    have hready' := ready?_of_new hm (h.avoids q hq) hc
    rw [evaluate_of_cut hready (Or.inr hq), evaluate_of_cut hready' (Or.inr hq)]
    exact ⟨rfl, h.grounded, h.avoids, h.within, fun _ => rfl⟩
  | limit pending q s hready hq =>
    rw [cutsFrom_of_limit hready hq] at hlimit
    exact absurd rfl (hlimit _ List.mem_cons_self)
  | run depth pending q s c hready hc hq ih =>
    -- Only here do the two part: an answer may have been kept between them.
    cases hkept : s'.memo.get? q with
    | some answer =>
      rw [evaluate_of_ready (ready?_of_get? hm hkept)]
      exact evaluate_follows_of_kept hm h hkept hlimit
    | none =>
      have hready' := ready?_of_new hm hkept hc
      have hlater := (evaluate_growsTo hm (depth + 1) pending q s' h.grounded h.avoids).1
      rw [cutsFrom_of_run hready hc hq] at hlimit
      rw [evaluate_of_run hready hc hq]
      rw [evaluate_of_run hready' hc hq] at hlater ⊢
      refine keeping_follows hm h hlater
        (Dialogue.run_alike ih (r.dialogue c q.type) ?_ hlimit)
      exact ⟨h.grounded, h.avoids.cons hkept, h.within, id⟩

/-! ## Queries after inquiries -/

/-- A query leaves a grounded memo. -/
theorem satisfies_grounded (hm : r.policy.memoize = true) (q : Query) {memo : Memo}
    (hg : r.Grounded memo) : r.Grounded (r.satisfies q memo).2 := by
  have havoids : memo.Avoids [] := fun _ hp => absurd hp List.not_mem_nil
  exact (evaluate_growsTo hm r.policy.depthLimit [] q { memo } hg havoids).1.grounded

/-- Every run of inquiries leaves a grounded memo. -/
theorem answerAll_grounded (hm : r.policy.memoize = true) (is : List Inquiry) :
    r.Grounded (r.answerAll is ∅).2 :=
  answerAll_keeps (fun q _ => satisfies_grounded hm q) is .empty

/-- **Nothing but the limit lets the past shine through.**  A query that would
    not be cut short by the limit if it came first, is answered after any
    inquiries as if it came first: also where cycles cut it short. -/
theorem satisfies_answerAll (r : Registry) (is : List Inquiry) (q : Query)
    (hlimit : ∀ cut ∈ r.cuts r.policy.depthLimit q, cut.reason ≠ .limit) :
    (r.satisfies q (r.answerAll is ∅).2).1 = (r.satisfies q ∅).1 := by
  cases hm : r.policy.memoize with
  | false =>
    rw [satisfies_of_not_memoize hm]
    rfl
  | true =>
    have hfollows : r.Follows [] {} { memo := (r.answerAll is ∅).2 } :=
      ⟨answerAll_grounded hm is, fun _ hp => absurd hp List.not_mem_nil,
        fun _ _ h => absurd h (by simp), fun h => h⟩
    exact (evaluate_follows hm r.policy.depthLimit [] q _ _ hfollows hlimit).1.symm

/-- `Rolls` needs both of the queries that the limit allows. -/
theorem satisfies_rolls_after_shallowInquiries :
    (∀ cut ∈ shallowThings.cuts shallowThings.policy.depthLimit ⟨⟨3⟩, ⟨1⟩⟩,
        cut.reason ≠ .limit) ∧
      (shallowThings.satisfies ⟨⟨3⟩, ⟨1⟩⟩ (shallowThings.answerAll shallowInquiries ∅).2).1 =
        (shallowThings.satisfies ⟨⟨3⟩, ⟨1⟩⟩ ∅).1 := by
  have hlimit : ∀ cut ∈ shallowThings.cuts shallowThings.policy.depthLimit ⟨⟨3⟩, ⟨1⟩⟩,
      cut.reason ≠ .limit := by
    decide +kernel
  exact ⟨hlimit, satisfies_answerAll _ _ _ hlimit⟩

/-- **The limit does let it.**  `Spins` is not met when it is asked first, for
    its evaluation needs one query more than may be in progress.  Once `Rests`
    has been asked, its answer is kept, and `Spins` is met. -/
theorem satisfies_spins_depends_on_inquiries :
    ¬ ∀ (r : Registry) (is : List Inquiry) (q : Query), r.Built → r.policy.memoize = true →
      (r.satisfies q (r.answerAll is ∅).2).1 = (r.satisfies q ∅).1 := by
  intro h
  have hspins := h shallowThings [.satisfies ⟨⟨2⟩, ⟨1⟩⟩] ⟨⟨4⟩, ⟨1⟩⟩ ⟨_, _, rfl⟩ (by decide +kernel)
  have hfirst : (shallowThings.satisfies ⟨⟨4⟩, ⟨1⟩⟩ ∅).1 = false := by decide +kernel
  have hlater : (shallowThings.satisfies ⟨⟨4⟩, ⟨1⟩⟩
      (shallowThings.answerAll [.satisfies ⟨⟨2⟩, ⟨1⟩⟩] ∅).2).1 = true := by decide +kernel
  rw [hfirst, hlater] at hspins
  cases hspins

end Registry

end MethodResolution
