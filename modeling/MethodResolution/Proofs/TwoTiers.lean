/-
  Method resolution — resolution in two tiers.

  What a call resolves to, said without gathering and without a scan:

  * `fittingMembers`: of the methods that the first class on the receiver's
    base chain declares under the name, those that the call fits;
  * `fittingExtensions`: of the visible free functions of the name that have a
    receiver parameter, those that the call fits, each query being asked on
    its own;
  * `TwoTiered`: which outcome a call has is decided by domination among the
    members and, only where there is no member, among the extensions;
  * `resolve_twoTiered`: after any run of inquiries, resolution has this
    outcome.
-/
import MethodResolution.Proofs.Transparency
import MethodResolution.Proofs.Verdict

namespace MethodResolution

namespace Registry

variable {r : Registry}

/-! ## The candidates of a call -/

/-- The members that a call fits: those of the first class that declares the
    name, counted upwards from the type of the receiver. -/
def fittingMembers (r : Registry) (call : CallSite) : List Candidate :=
  match (r.chain call.receiver.type).find? (·.declares call.name) with
  | none => []
  | some c =>
    (c.methods.filter (·.simpleName = call.name)).filterMap fun m =>
      (r.matchMember? m call.receiver call.args).map fun fit =>
        ⟨m, .member, fit, r.memberAccess m call.caller⟩

/-- How a call fits a free function; the query that this hangs on is asked on
    its own. -/
def fitFree? (r : Registry) (c : Callable) (receiver : DataType) (args : List DataType) :
    Option Match :=
  (r.matchFree? c receiver args).bind fun fit => (fit.settle r.satisfies ∅).1

/-- The extensions that a call fits. -/
def fittingExtensions (r : Registry) (call : CallSite) : List Candidate :=
  ((r.visibleFunctions call.path call.name).filter (·.isExtension)).filterMap fun c =>
    (r.fitFree? c call.receiver call.args).map fun fit => ⟨c, .extension, fit, .accessible⟩

theorem gatherMembers_eq_fittingMembers (call : CallSite) :
    r.gatherMembers call = r.fittingMembers call := by
  rw [gatherMembers, memberCandidates, membersNamed, declaring?, fittingMembers]
  cases (r.chain call.receiver.type).find? (·.declares call.name) with
  | none => rfl
  | some c => rfl

theorem tier_of_mem_fittingMembers {call : CallSite} :
    ∀ c ∈ r.fittingMembers call, c.tier = .member := by
  rw [← gatherMembers_eq_fittingMembers]
  exact tier_of_mem_gatherMembers

theorem mem_fittingExtensions {call : CallSite} {c : Candidate}
    (hc : c ∈ r.fittingExtensions call) : c.tier = .extension ∧ c.access = .accessible := by
  rw [fittingExtensions, List.mem_filterMap] at hc
  obtain ⟨callable, -, hfit⟩ := hc
  obtain ⟨fit, -, rfl⟩ := Option.map_eq_some_iff.1 hfit
  exact ⟨rfl, rfl⟩

theorem standing_extensionCandidates (h : r.Transparent) (call : CallSite) :
    Contingent.standing r.holds (r.extensionCandidates call) = r.fittingExtensions call := by
  rw [extensionCandidates, freeCandidates, fittingExtensions]
  induction (r.visibleFunctions call.path call.name).filter (·.isExtension) with
  | nil => rfl
  | cons c cs ih =>
    rw [List.filterMap_cons, List.filterMap_cons, fitFree?]
    cases r.matchFree? c call.receiver call.args with
    | none => exact ih
    | some fit =>
      rw [Option.bind_some, settle_fst h consistent_empty, Option.map_some]
      simp only [Contingent.standing, List.filter_cons, Contingent.map] at ih ⊢
      split_ifs with hholds
      · rw [List.map_cons, ih]
        rfl
      · exact ih

/-! ## The outcome of a call -/

/-- The candidate `c` compares strictly better than all others of `cs`. -/
abbrev Best (r : Registry) (call : CallSite) (cs : List Candidate) (c : Candidate) : Prop :=
  Selection.Dominates (r.compareCandidates call.receiver) cs c

/-- The outcome `out` of a call is the one that its members and, where there
    are none, its extensions ask for. -/
structure TwoTiered (r : Registry) (call : CallSite) (out : Resolution) : Prop where
  member : ∀ bound, out = .ok bound ∧ bound.tier = .member ↔
    ∃ m, r.Best call (r.fittingMembers call) m ∧ m.access.isAccessible ∧ bound = r.bind m call
  inaccessible : ∀ info reason,
    out = .error ⟨r.summarize call, .selectedButInaccessible info reason⟩ ↔
      ∃ m, r.Best call (r.fittingMembers call) m ∧ ¬ m.access.isAccessible ∧
        info = r.candidateInfo m ∧ reason = m.access
  ambiguousMembers :
    (∃ infos, out = .error ⟨r.summarize call, .ambiguousCandidates .member infos⟩) ↔
      r.fittingMembers call ≠ [] ∧ ¬ ∃ m, r.Best call (r.fittingMembers call) m
  extension : ∀ bound, out = .ok bound ∧ bound.tier = .extension ↔
    r.fittingMembers call = [] ∧
      ∃ e, r.Best call (r.fittingExtensions call) e ∧ bound = r.bind e call
  ambiguousExtensions :
    (∃ infos, out = .error ⟨r.summarize call, .ambiguousCandidates .extension infos⟩) ↔
      r.fittingMembers call = [] ∧ r.fittingExtensions call ≠ [] ∧
        ¬ ∃ e, r.Best call (r.fittingExtensions call) e
  noViable : out = .error ⟨r.summarize call, .noViableCandidate⟩ ↔
    r.fittingMembers call = [] ∧ r.fittingExtensions call = []

/-- The verdict on the members, where there are any. -/
theorem twoTiered_of_members {call : CallSite} (h : r.fittingMembers call ≠ []) :
    r.TwoTiered call (r.verdict call .member (r.fittingMembers call)) where
  member bound := by
    rw [verdict_eq_ok_iff tier_of_mem_fittingMembers]
    constructor
    · rintro ⟨hbest, -⟩
      exact hbest
    · rintro ⟨m, hbest, haccess, rfl⟩
      refine ⟨⟨m, hbest, haccess, rfl⟩, ?_⟩
      rw [bind_tier, tier_of_mem_fittingMembers m hbest.1]
  inaccessible info reason := verdict_eq_inaccessible_iff tier_of_mem_fittingMembers
  ambiguousMembers := by
    rw [verdict_eq_ambiguous_iff tier_of_mem_fittingMembers]
    exact and_iff_right rfl
  extension bound := by
    rw [verdict_eq_ok_iff tier_of_mem_fittingMembers]
    constructor
    · rintro ⟨⟨m, hbest, -, rfl⟩, htier⟩
      rw [bind_tier, tier_of_mem_fittingMembers m hbest.1] at htier
      cases htier
    · rintro ⟨hnil, -⟩
      exact absurd hnil h
  ambiguousExtensions := by
    rw [verdict_eq_ambiguous_iff tier_of_mem_fittingMembers]
    simp [h]
  noViable := by
    rw [verdict_eq_noViable_iff]
    simp [h]

theorem not_best_nil {call : CallSite} {c : Candidate} : ¬ r.Best call [] c :=
  fun h => List.not_mem_nil h.1

/-- The verdict on the extensions, where no member fits. -/
theorem twoTiered_of_extensions {call : CallSite} (h : r.fittingMembers call = []) :
    r.TwoTiered call (r.verdict call .extension (r.fittingExtensions call)) where
  member bound := by
    rw [verdict_eq_ok_iff fun c hc => (mem_fittingExtensions hc).1, h]
    constructor
    · rintro ⟨⟨e, hbest, -, rfl⟩, htier⟩
      rw [bind_tier, (mem_fittingExtensions hbest.1).1] at htier
      cases htier
    · rintro ⟨m, hbest, -⟩
      exact absurd hbest not_best_nil
  inaccessible info reason := by
    rw [verdict_eq_inaccessible_iff fun c hc => (mem_fittingExtensions hc).1, h]
    constructor
    · rintro ⟨e, hbest, haccess, -⟩
      rw [(mem_fittingExtensions hbest.1).2] at haccess
      exact absurd rfl haccess
    · rintro ⟨m, hbest, -⟩
      exact absurd hbest not_best_nil
  ambiguousMembers := by
    rw [verdict_eq_ambiguous_iff fun c hc => (mem_fittingExtensions hc).1]
    simp [h]
  extension bound := by
    rw [verdict_eq_ok_iff fun c hc => (mem_fittingExtensions hc).1]
    constructor
    · rintro ⟨⟨e, hbest, -, rfl⟩, -⟩
      exact ⟨h, e, hbest, rfl⟩
    · rintro ⟨-, e, hbest, rfl⟩
      obtain ⟨htier, haccess⟩ := mem_fittingExtensions hbest.1
      refine ⟨⟨e, hbest, ?_, rfl⟩, ?_⟩
      · rw [haccess]
        rfl
      · rw [bind_tier, htier]
  ambiguousExtensions := by
    rw [verdict_eq_ambiguous_iff fun c hc => (mem_fittingExtensions hc).1]
    simp [h]
  noViable := by
    rw [verdict_eq_noViable_iff]
    simp [h]

/-- **Resolution has the outcome that domination asks for**, after any run of
    inquiries, if as many queries may be in progress as there are constraints. -/
theorem resolve_twoTiered (r : Registry) (h : r.concepts.size ≤ r.policy.depthLimit)
    (is : List Inquiry) (call : CallSite) :
    r.TwoTiered call (r.resolve call (r.answerAll is ∅).2).1 := by
  by_cases hmembers : r.gatherMembers call = []
  · have hmemo : r.Consistent (r.answerAll is ∅).2 := answerAll_consistent is consistent_empty
    rw [resolve_of_no_members hmembers, gatherExtensions_fst (Or.inr h) hmemo,
      standing_extensionCandidates (Or.inr h)]
    rw [gatherMembers_eq_fittingMembers] at hmembers
    exact twoTiered_of_extensions hmembers
  · rw [resolve_of_members hmembers]
    rw [gatherMembers_eq_fittingMembers] at hmembers ⊢
    exact twoTiered_of_members hmembers

theorem resolve_roll_twoTiered :
    rollingThings.concepts.size ≤ rollingThings.policy.depthLimit ∧
      rollingThings.TwoTiered { receiver := .ofKey ⟨1⟩, name := "roll" }
        (rollingThings.resolve { receiver := .ofKey ⟨1⟩, name := "roll" }
          (rollingThings.answerAll rollingInquiries ∅).2).1 :=
  ⟨by decide +kernel, resolve_twoTiered _ (by decide +kernel) _ _⟩

end Registry

end MethodResolution
