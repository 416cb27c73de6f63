/-
  Method resolution — extensions never change a member call.

  A call that fits a member is decided by the types alone: by the members that
  the name means, their ranking, their access and the names in a diagnostic.
  Free functions, constraints and imports may be declared at any time, and no
  such declaration touches a type.

  * `after_types`: a run of such declarations leaves the types alone, whether
    they are accepted or refused;
  * `verdict_member_congr`: the verdict on members asks for no constraint;
  * `resolve_after_of_members`: so such a run does not change what the call
    resolves to, nor does the call ask any query.
-/
import MethodResolution.Proofs.Locality
import MethodResolution.Proofs.Registration
import MethodResolution.Proofs.Verdict

namespace MethodResolution

/-! ## Declarations outside of classes -/

/-- Whether a free function, a constraint or an import is declared. -/
def Declaration.isOutside : Declaration → Bool
  | free _ | constraint _ | import_ _ _ => true
  | primitives | ofClass _ | member _ _ => false

namespace Registry

variable {r r' : Registry}

/-- No declaration changes the policy. -/
theorem Accepts.policy_eq {d : Declaration} {k : Option Key} (h : r.Accepts d k r') :
    r'.policy = r.policy := by
  cases h <;> rfl

/-- Only declarations of classes and their members touch the types. -/
theorem Accepts.types_eq {d : Declaration} {k : Option Key} (h : r.Accepts d k r')
    (hd : d.isOutside) : r'.types = r.types := by
  cases h with
  | primitives | ofClass _ _ | member _ => cases hd
  | free _ | constraint _ _ | import_ => rfl

theorem after_policy (r : Registry) (ds : List Declaration) : (r.after ds).policy = r.policy :=
  after_induction (P := fun r' => r'.policy = r.policy) ds
    (fun _ _ _ _ _ hr haccepts => haccepts.policy_eq.trans hr) rfl

theorem after_types (r : Registry) {ds : List Declaration} (hds : ∀ d ∈ ds, d.isOutside) :
    (r.after ds).types = r.types :=
  after_induction (P := fun r' => r'.types = r.types) ds
    (fun _ d hd _ _ hr haccepts => (haccepts.types_eq (hds d hd)).trans hr) rfl

/-! ## The verdict on members -/

/-- Members are ranked without a look at the registry. -/
theorem compareCandidates_of_member {a b : Candidate} (receiver : DataType)
    (ha : a.tier = .member) :
    r.compareCandidates receiver a b = r'.compareCandidates receiver a b := by
  simp only [compareCandidates, ha]

/-- **The verdict on members asks for no constraint.** -/
theorem verdict_member_congr (ht : r.types = r'.types)
    (hp : r.policy.convention = r'.policy.convention) {cs : List Candidate}
    (hcs : ∀ c ∈ cs, c.tier = .member) (call : CallSite) :
    r.verdict call .member cs = r'.verdict call .member cs := by
  have hselect : r.selectBest call.receiver cs = r'.selectBest call.receiver cs :=
    Selection.best_congr fun a ha b _ => compareCandidates_of_member call.receiver (hcs a ha)
  simp only [verdict, hselect, summarize_congr ht, candidateInfo_congr ht, bind_congr hp]

/-- **Extensions never change a member call.**  After any further free
    functions, constraints and imports, accepted or refused, a call that fits a
    member resolves to what it did before: the same bound call, or the same
    error with the same diagnostic.  It leaves the kept answers alone, for it
    asks no query. -/
theorem resolve_after_of_members (r : Registry) (ds : List Declaration) (call : CallSite)
    (memo memo' : Memo) (hds : ∀ d ∈ ds, d.isOutside) (h : r.gatherMembers call ≠ []) :
    (r.after ds).resolve call memo' = ((r.resolve call memo).1, memo') := by
  have htypes := after_types r hds
  have hmembers : (r.after ds).gatherMembers call = r.gatherMembers call := by
    rw [gatherMembers_congr htypes]
  have hverdict : (r.after ds).verdict call .member (r.gatherMembers call) =
      r.verdict call .member (r.gatherMembers call) :=
    verdict_member_congr htypes (by rw [after_policy]) tier_of_mem_gatherMembers call
  rw [resolve_of_members (hmembers ▸ h), resolve_of_members h, hmembers, hverdict]

/-- A class whose only member is private. -/
def closedThing : Registry :=
  (Registry.initial {}).after
    [.primitives, .ofClass { name := .global "Thing", key := ⟨1⟩ },
      .member ⟨1⟩ { Callable.member ⟨1⟩ "stop" with visibility := .private }]

/-- Extensions that would fit where the member may not be used, and a
    constraint that is refused. -/
def lateExtensions : List Declaration :=
  [.constraint { name := .global "Rests", key := ⟨4⟩ },
    .constraint { name := .global "Rests", key := ⟨4⟩ },
    .free ((Callable.free ⟨"stop", ["lib"]⟩).withReceiver (.pointer ⟨1⟩)),
    .free { (Callable.free (.global "stop")).withReceiver (.pointer Key.constrained) with
      constraint := some ⟨4⟩ },
    .import_ [] ["lib"]]

/-- A call from outside of the class. -/
def stopCall : CallSite := { receiver := .ofKey ⟨1⟩, name := "stop" }

theorem resolve_stopCall_after_lateExtensions :
    (∀ d ∈ lateExtensions, d.isOutside) ∧ closedThing.gatherMembers stopCall ≠ [] ∧
      (closedThing.after lateExtensions).resolve stopCall ∅ =
        ((closedThing.resolve stopCall ∅).1, ∅) :=
  ⟨by decide, by decide +kernel,
    resolve_after_of_members _ _ _ ∅ ∅ (by decide) (by decide +kernel)⟩

end Registry

end MethodResolution
