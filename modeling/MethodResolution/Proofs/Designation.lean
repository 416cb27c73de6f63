/-
  Method resolution — what a call designates.

  A receiver or an argument is reached as a value, through a reference or
  through a pointer.  Whichever it is, it designates the same object, and what
  a call is bound to depends on the objects alone.

  * `DataType.designated`, `CallSite.designated`: the objects themselves, as
    if all were reached as values;
  * `conversion?_designated`: the conversions are those of the objects, and
    with them the candidates of a call;
  * `BindsAlike`: how two calls are bound, or fail, if they differ only in how
    their objects are reached.  A bound member is dispatched as its receiver is
    reached, and a diagnostic writes the call as it stands;
  * `resolve_bindsAlike`: calls on the same objects resolve so.
-/
import MethodResolution.Proofs.Registration
import MethodResolution.Proofs.Verdict

namespace MethodResolution

/-- The object itself, however it is reached. -/
def DataType.designated (d : DataType) : DataType := d.withIndirection .value

/-- The call on the objects themselves. -/
def CallSite.designated (call : CallSite) : CallSite :=
  { call with receiver := call.receiver.designated, args := call.args.map (·.designated) }

namespace Registry

variable {r : Registry}

/-! ## Matching -/

/-- A conversion asks how the target is reached, not the source. -/
theorem conversion?_designated (source target : DataType) :
    r.conversion? source.designated target = r.conversion? source target := rfl

theorem convertArgs_designated (params : List Param) (args : List DataType) :
    r.convertArgs params (args.map (·.designated)) = r.convertArgs params args := by
  induction params generalizing args with
  | nil => cases args <;> rfl
  | cons p params ih =>
    cases args with
    | nil => rfl
    | cons a args => rw [List.map_cons, convertArgs, convertArgs, conversion?_designated, ih]

theorem matchArgs?_designated (params : List Param) (args : List DataType) :
    r.matchArgs? params (args.map (·.designated)) = r.matchArgs? params args := by
  rw [matchArgs?, matchArgs?, List.length_map, convertArgs_designated]

theorem matchMember?_designated (c : Callable) (receiver : DataType) (args : List DataType) :
    r.matchMember? c receiver.designated (args.map (·.designated)) =
      r.matchMember? c receiver args := by
  rw [matchMember?, matchMember?, matchArgs?_designated]
  rfl

theorem matchFree?_designated (c : Callable) (receiver : DataType) (args : List DataType) :
    r.matchFree? c receiver.designated (args.map (·.designated)) =
      r.matchFree? c receiver args := by
  have hreceiver : r.matchReceiver? c receiver.designated = r.matchReceiver? c receiver := rfl
  rw [matchFree?, matchFree?, matchArgs?_designated, hreceiver]

/-! ## Candidates -/

theorem gatherMembers_designated (call : CallSite) :
    r.gatherMembers call.designated = r.gatherMembers call := by
  simp only [gatherMembers, memberCandidates, CallSite.designated, matchMember?_designated]
  rfl

theorem extensionCandidates_designated (call : CallSite) :
    r.extensionCandidates call.designated = r.extensionCandidates call := by
  simp only [extensionCandidates, freeCandidates, CallSite.designated, matchFree?_designated]

theorem gatherExtensions_designated (call : CallSite) :
    r.gatherExtensions call.designated = r.gatherExtensions call := by
  rw [gatherExtensions, gatherExtensions, extensionCandidates_designated]

theorem selectBest_designated (receiver : DataType) (cs : List Candidate) :
    r.selectBest receiver.designated cs = r.selectBest receiver cs := rfl

/-! ## Outcomes -/

/-- How calls on the same objects resolve. -/
inductive BindsAlike (r : Registry) (call call' : CallSite) : Resolution → Resolution → Prop
  /-- One member is bound in both.  Each call keeps its own receiver and is
      dispatched as that is reached. -/
  | member {f : Callable} {args : List BoundArg} :
      f ∈ r.membersNamed call.receiver.type call.name →
      BindsAlike r call call'
        (.ok (.member f.key call.receiver (.of f call.receiver) args))
        (.ok (.member f.key call'.receiver (.of f call'.receiver) args))
  /-- One extension is bound in the same way in both. -/
  | extension {bound : BoundCall} : bound.tier = .extension →
      BindsAlike r call call' (.ok bound) (.ok bound)
  /-- Both fail for the same reason.  Each diagnostic writes its own call. -/
  | fault {fault : ResolutionFault} :
      BindsAlike r call call' (.error ⟨r.summarize call, fault⟩)
        (.error ⟨r.summarize call', fault⟩)

section
variable {call call' : CallSite} (h : call.designated = call'.designated)
include h

theorem bind_bindsAlike {c : Candidate}
    (hc : c.tier = .member → c.callable ∈ r.membersNamed call.receiver.type call.name) :
    r.BindsAlike call call' (.ok (r.bind c call)) (.ok (r.bind c call')) := by
  cases htier : c.tier with
  | member =>
    simp only [bind, htier]
    exact .member (hc htier)
  | extension =>
    have htype : call.receiver.type = call'.receiver.type :=
      congrArg (fun call => call.receiver.type) h
    have hbind : r.bind c call' = r.bind c call := by simp only [bind, htier, htype]
    rw [hbind]
    exact .extension ((bind_tier c call).trans htier)

theorem verdict_bindsAlike {tier : Tier} {cs : List Candidate} (htier : ∀ c ∈ cs, c.tier = tier)
    (hmembers : tier = .member →
      ∀ c ∈ cs, c.callable ∈ r.membersNamed call.receiver.type call.name) :
    r.BindsAlike call call' (r.verdict call tier cs) (r.verdict call' tier cs) := by
  have hreceiver : call.receiver.designated = call'.receiver.designated :=
    congrArg CallSite.receiver h
  have hselect : r.selectBest call'.receiver cs = r.selectBest call.receiver cs := by
    rw [← selectBest_designated, ← hreceiver, selectBest_designated]
  rcases hbest : r.selectBest call.receiver cs with _ | ⟨c⟩ | ⟨front, tied⟩
  · rw [verdict_of_none hbest, verdict_of_none (hselect.trans hbest)]
    exact .fault
  · rw [verdict_of_unique hbest, verdict_of_unique (hselect.trans hbest)]
    split_ifs with haccess
    · have hc : c ∈ cs := ((selectBest_eq_unique_iff htier).1 hbest).1
      exact bind_bindsAlike h fun hmember => hmembers ((htier c hc).symm.trans hmember) c hc
    · exact .fault
  · rw [verdict_of_ambiguous hbest, verdict_of_ambiguous (hselect.trans hbest)]
    exact .fault

end

/-- **What a call is bound to depends on the objects alone**, not on how they
    are reached.  Two calls that differ in nothing else are bound to one
    callable with the same conversions, or fail for the same reason; and they
    leave the same answers behind, whatever was kept. -/
theorem resolve_bindsAlike (r : Registry) (call call' : CallSite) (memo : Memo)
    (h : call.designated = call'.designated) :
    r.BindsAlike call call' (r.resolve call memo).1 (r.resolve call' memo).1 ∧
      (r.resolve call memo).2 = (r.resolve call' memo).2 := by
  have hmembers : r.gatherMembers call' = r.gatherMembers call := by
    rw [← gatherMembers_designated, ← h, gatherMembers_designated]
  have hextensions : r.gatherExtensions call' = r.gatherExtensions call := by
    rw [← gatherExtensions_designated, ← h, gatherExtensions_designated]
  by_cases hnone : r.gatherMembers call = []
  · rw [resolve_of_no_members hnone, resolve_of_no_members (hmembers.trans hnone), hextensions]
    refine ⟨verdict_bindsAlike h (fun c hc => (mem_gatherExtensions hc).1) ?_, rfl⟩
    rintro ⟨⟩
  · rw [resolve_of_members hnone, resolve_of_members (hmembers ▸ hnone), hmembers]
    refine ⟨verdict_bindsAlike h tier_of_mem_gatherMembers ?_, rfl⟩
    exact fun _ c hc => (mem_memberCandidates hc).1

/-- A class with a virtual member that takes a number. -/
def turningThings : Registry :=
  (Registry.initial {}).after
    [.primitives, .ofClass { name := .global "Thing", key := ⟨1⟩ },
      .member ⟨1⟩ { Callable.member ⟨1⟩ "turn" with
        params := [⟨.ofKey Primitive.double.key, false⟩], isVirtual := true }]

/-- The call reaches the thing and the number as values. -/
def turnCall : CallSite :=
  { receiver := .ofKey ⟨1⟩, name := "turn", args := [.ofKey Primitive.int32.key] }

/-- The call reaches them through a pointer and a reference. -/
def turnAtCall : CallSite :=
  { receiver := .pointer ⟨1⟩, name := "turn", args := [.reference Primitive.int32.key] }

theorem resolve_turnCall_bindsAlike :
    turnCall.designated = turnAtCall.designated ∧
      turningThings.BindsAlike turnCall turnAtCall (turningThings.resolve turnCall ∅).1
        (turningThings.resolve turnAtCall ∅).1 ∧
      (turningThings.resolve turnCall ∅).2 = (turningThings.resolve turnAtCall ∅).2 :=
  ⟨by decide +kernel, resolve_bindsAlike _ _ _ ∅ (by decide +kernel)⟩

/-- They are dispatched differently. -/
example : ∃ k args, (turningThings.resolve turnCall ∅).1 =
      .ok (.member k turnCall.receiver .direct args) ∧
    (turningThings.resolve turnAtCall ∅).1 = .ok (.member k turnAtCall.receiver .virtual args) :=
  ⟨Key.ofMember ⟨1⟩ "turn" [(DataType.ofKey Primitive.double.key).signature] false,
    [.converted ⟨.numeric Primitive.int32.key Primitive.double.key, 8⟩], by decide +kernel⟩

end Registry

end MethodResolution
