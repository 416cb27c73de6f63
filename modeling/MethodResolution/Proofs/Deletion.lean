/-
  Method resolution — deleted callables.

  A deleted callable is ranked like any other, and it may turn out to be the
  best.  What comes of this depends on the tier.  Members are guarded: a
  deleted member that is selected is reported, and nothing else is bound in its
  place.  Extensions are open to all, and a deleted one is bound like any other.

  * `access_of_mem_candidates`: each candidate carries the verdict of the guard
    of its tier;
  * `resolve_guardsMembers`: so no deleted member is bound, and the best
    extension is bound, whether or not it is deleted;
  * `not_forall_chosen_not_deleted`: so the same cannot be said of all
    callables.
-/
import MethodResolution.Proofs.BoundCalls

namespace MethodResolution

namespace Registry

variable {r : Registry} {call : CallSite} {memo : Memo} {c : Candidate}

/-- Each candidate carries the verdict of the guard of its tier. -/
theorem access_of_mem_candidates (h : c ∈ r.candidates call memo) :
    c.access = r.access c.tier c.callable call.caller := by
  rw [candidates] at h
  split_ifs at h with hmembers
  · obtain ⟨d, hd, rfl, -⟩ :=
      @answered_of_mem_settleAll _ _ (fun _ => True) _ (fun _ _ _ => trivial) _ _ trivial _ h
    rw [extensionCandidates, freeCandidates, List.mem_filterMap] at hd
    obtain ⟨f, -, hfit⟩ := hd
    obtain ⟨fit, -, rfl⟩ := Option.map_eq_some_iff.1 hfit
    rfl
  · obtain ⟨htier, -, haccess⟩ := mem_gatherMembers h
    rw [haccess, htier]
    rfl

theorem memberAccess_of_isDeleted {m : Callable} (h : m.isDeleted = true) (caller : Option Key) :
    r.memberAccess m caller = .deleted := by
  rw [memberAccess, if_pos h]

/-- **Deleted members are never bound**, whatever answers are kept.  A deleted
    member that is better than all other candidates is reported, and the call
    is bound to nothing else.  An extension that is better than all others is
    bound, whether or not it is deleted. -/
theorem resolve_guardsMembers (r : Registry) (call : CallSite) (memo : Memo) :
    (∀ bound, (r.resolve call memo).1 = .ok bound →
      ∃ c, r.Chosen call memo bound c ∧ (c.tier = .member → c.callable.isDeleted = false)) ∧
      ∀ c, r.Best call (r.candidates call memo) c →
        (c.tier = .member → c.callable.isDeleted = true →
          (r.resolve call memo).1 =
            .error ⟨r.summarize call, .selectedButInaccessible (r.candidateInfo c) .deleted⟩) ∧
        (c.tier = .extension → (r.resolve call memo).1 = .ok (r.bind c call)) := by
  refine ⟨fun bound hbound => ?_, fun c hbest => ⟨fun htier hdeleted => ?_, fun htier => ?_⟩⟩
  · obtain ⟨c, hbest, haccess, heq⟩ := resolve_eq_ok_iff.1 hbound
    refine ⟨c, ⟨hbest, heq⟩, fun htier => ?_⟩
    rw [access_of_mem_candidates hbest.1, htier] at haccess
    by_contra hdeleted
    rw [access, memberAccess_of_isDeleted (by simpa using hdeleted)] at haccess
    cases haccess
  · have haccess : c.access = .deleted := by
      rw [access_of_mem_candidates hbest.1, htier, access, memberAccess_of_isDeleted hdeleted]
    refine resolve_eq_inaccessible_iff.2 ⟨c, hbest, ?_, rfl, haccess.symm⟩
    rw [haccess]
    decide
  · have haccess : c.access = .accessible := by
      rw [access_of_mem_candidates hbest.1, htier, access]
    refine resolve_eq_ok_iff.2 ⟨c, hbest, ?_, rfl⟩
    rw [haccess]
    rfl

/-- A class with two overloads, of which one is deleted, and a deleted
    extension. -/
def revokedThings : Registry :=
  (Registry.initial {}).after
    [.primitives, .ofClass { name := .global "Thing", key := ⟨1⟩ },
      .member ⟨1⟩ (Callable.member ⟨1⟩ "stop"),
      .member ⟨1⟩ { Callable.member ⟨1⟩ "stop" with
        params := [⟨.ofKey Primitive.int32.key, false⟩], isDeleted := true },
      .free { (Callable.free (.global "mark")).withReceiver (.pointer ⟨1⟩) with
        isDeleted := true }]

/-- A call of the member that is not deleted. -/
def plainStop : CallSite := { receiver := .ofKey ⟨1⟩, name := "stop" }

/-- A call of the deleted member. -/
def countedStop : CallSite := { plainStop with args := [.ofKey Primitive.int32.key] }

/-- A call of the deleted extension. -/
def revokedMark : CallSite := { receiver := .ofKey ⟨1⟩, name := "mark" }

/-- The only candidate of each call. -/
def soleCandidate (call : CallSite) : Candidate :=
  (revokedThings.candidates call ∅).headD default

theorem resolve_revokedThings_guardsMembers :
    (∃ bound c, (revokedThings.resolve plainStop ∅).1 = .ok bound ∧
      revokedThings.Chosen plainStop ∅ bound c ∧
      (c.tier = .member → c.callable.isDeleted = false)) ∧
      (revokedThings.resolve countedStop ∅).1 =
        .error ⟨revokedThings.summarize countedStop, .selectedButInaccessible
          (revokedThings.candidateInfo (soleCandidate countedStop)) .deleted⟩ ∧
      (revokedThings.resolve revokedMark ∅).1 =
        .ok (revokedThings.bind (soleCandidate revokedMark) revokedMark) := by
  have hplain : (revokedThings.resolve plainStop ∅).1 =
      .ok (revokedThings.bind (soleCandidate plainStop) plainStop) := by decide +kernel
  obtain ⟨c, hchosen, hguarded⟩ := (resolve_guardsMembers _ _ _).1 _ hplain
  have hcounted : revokedThings.Best countedStop (revokedThings.candidates countedStop ∅)
      (soleCandidate countedStop) := by decide +kernel
  have hmark : revokedThings.Best revokedMark (revokedThings.candidates revokedMark ∅)
      (soleCandidate revokedMark) := by decide +kernel
  exact ⟨⟨_, c, hplain, hchosen, hguarded⟩,
    ((resolve_guardsMembers _ _ _).2 _ hcounted).1 (by decide +kernel) (by decide +kernel),
    ((resolve_guardsMembers _ _ _).2 _ hmark).2 (by decide +kernel)⟩

/-- **Deleted extensions are bound.**  So it is not true of all callables that a
    deleted one is never bound. -/
theorem not_forall_chosen_not_deleted :
    ¬ ∀ (r : Registry) (call : CallSite) (bound : BoundCall) (c : Candidate), r.Built →
      (r.resolve call ∅).1 = .ok bound → r.Chosen call ∅ bound c →
      c.callable.isDeleted = false := by
  intro hnever
  have hbound : (revokedThings.resolve revokedMark ∅).1 =
      .ok (revokedThings.bind (soleCandidate revokedMark) revokedMark) := by decide +kernel
  obtain ⟨c, hchosen⟩ := exists_chosen hbound
  have hdeleted : ∀ c ∈ revokedThings.candidates revokedMark ∅, c.callable.isDeleted = true := by
    decide +kernel
  have hkept := hnever _ _ _ c ⟨_, _, rfl⟩ hbound hchosen
  rw [hdeleted c hchosen.best.1] at hkept
  cases hkept

end Registry

end MethodResolution
