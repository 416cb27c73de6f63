/-
  Method resolution — the verdict on the candidates of one tier.

  Each kind of verdict is met by exactly one condition on the candidates, and
  no condition looks at their order:

  * `verdict_eq_ok_iff`, `verdict_eq_inaccessible_iff`: a candidate that
    dominates the others is bound, or rejected if the caller may not use it;
  * `verdict_eq_ambiguous_iff`: candidates of which none dominates are a tie;
  * `verdict_eq_noViable_iff`: without candidates, nothing is viable.

  A call is decided among its members or, where there are none, among its
  extensions (`resolve_of_members`, `resolve_of_no_members`); so what is bound,
  or reported because the caller may not use it, dominates one of the two
  (`resolve_eq_ok_iff`, `resolve_eq_inaccessible_iff`), and
  `mem_gatherMembers` and `mem_gatherExtensions` tell what is known of it.  An
  extension that hangs on a query is gathered because this was answered with
  yes (`answered_of_mem_gatherExtensions`); one that hangs on none is gathered
  whatever is answered (`mem_settleAll`).
-/
import MethodResolution.Proofs.Domination
import MethodResolution.Resolution

namespace MethodResolution

/-! ## Settled conditions -/

namespace Contingent

variable {α σ : Type} {ask : Query → StateM σ Bool} {cs : List (Contingent α)} {s : σ}

theorem settle_some (value : α) (q : Query) :
    ((⟨value, some q⟩ : Contingent α).settle ask s).1 =
      if (ask q s).1 then some value else none :=
  rfl

theorem settleAll_cons (ask : Query → StateM σ Bool) (c : Contingent α)
    (cs : List (Contingent α)) (s : σ) : (settleAll ask (c :: cs) s).1 =
      (c.settle ask s).1.toList ++ (settleAll ask cs (c.settle ask s).2).1 :=
  rfl

/-- What hangs on no query stands. -/
theorem mem_settleAll {a : α} (h : ⟨a, none⟩ ∈ cs) : a ∈ (settleAll ask cs s).1 := by
  induction cs generalizing s with
  | nil => cases h
  | cons c cs ih =>
    rw [settleAll_cons, List.mem_append]
    rcases List.mem_cons.1 h with rfl | h
    · exact Or.inl List.mem_cons_self
    · exact Or.inr (ih h)

theorem sublist_settle (c : Contingent α) : (c.settle ask s).1.toList.Sublist [c.value] := by
  obtain ⟨value, given⟩ := c
  cases given with
  | none => exact .refl _
  | some q =>
    rw [settle_some]
    split_ifs
    · exact .refl _
    · exact List.nil_sublist _

/-- What stands comes in the order of the list. -/
theorem sublist_settleAll : (settleAll ask cs s).1.Sublist (cs.map (·.value)) := by
  induction cs generalizing s with
  | nil => exact .refl _
  | cons c cs ih =>
    rw [settleAll_cons]
    exact (sublist_settle c).append ih

end Contingent

namespace Registry

variable {r : Registry}

theorem bind_tier (c : Candidate) (call : CallSite) : (r.bind c call).tier = c.tier := by
  cases htier : c.tier <;> simp only [bind, htier, BoundCall.tier]

theorem bind_key (c : Candidate) (call : CallSite) : (r.bind c call).key = c.key := by
  cases htier : c.tier <;> simp only [bind, htier, BoundCall.key]

section
variable {call : CallSite} {tier : Tier} {cs : List Candidate}

/-- What the verdict makes of the selection. -/
theorem verdict_of_unique {c : Candidate}
    (h : r.selectBest call.receiver cs = some (.unique c)) :
    r.verdict call tier cs =
      if c.access.isAccessible then .ok (r.bind c call)
      else .error ⟨r.summarize call, .selectedButInaccessible (r.candidateInfo c) c.access⟩ := by
  rw [verdict, h]

theorem verdict_of_ambiguous {front : Candidate} {tied : List Candidate}
    (h : r.selectBest call.receiver cs = some (.ambiguous front tied)) :
    r.verdict call tier cs =
      .error ⟨r.summarize call,
        .ambiguousCandidates tier ((front :: tied).map r.candidateInfo)⟩ := by
  rw [verdict, h]

theorem verdict_of_none (h : r.selectBest call.receiver cs = none) :
    r.verdict call tier cs = .error ⟨r.summarize call, .noViableCandidate⟩ := by
  rw [verdict, h]

variable (h : ∀ c ∈ cs, c.tier = tier)
include h

/-- **A call is bound to the dominating candidate**, if the caller may use it. -/
theorem verdict_eq_ok_iff {bound : BoundCall} :
    r.verdict call tier cs = .ok bound ↔
      ∃ c, Selection.Dominates (r.compareCandidates call.receiver) cs c ∧
        c.access.isAccessible ∧ bound = r.bind c call := by
  simp only [← selectBest_eq_unique_iff h]
  rcases hbest : r.selectBest call.receiver cs with _ | ⟨c⟩ | ⟨front, tied⟩
  · simp [verdict_of_none hbest]
  · by_cases haccess : c.access.isAccessible
    · rw [verdict_of_unique hbest, if_pos haccess]
      constructor
      · rintro ⟨⟩
        exact ⟨c, rfl, haccess, rfl⟩
      · rintro ⟨_, ⟨⟩, -, rfl⟩
        rfl
    · simp [verdict_of_unique hbest, haccess]
  · simp [verdict_of_ambiguous hbest]

/-- The dominating candidate is reported, if the caller may not use it. -/
theorem verdict_eq_inaccessible_iff {info : CandidateInfo} {reason : Access} :
    r.verdict call tier cs =
        .error ⟨r.summarize call, .selectedButInaccessible info reason⟩ ↔
      ∃ c, Selection.Dominates (r.compareCandidates call.receiver) cs c ∧
        ¬ c.access.isAccessible ∧ info = r.candidateInfo c ∧ reason = c.access := by
  simp only [← selectBest_eq_unique_iff h]
  rcases hbest : r.selectBest call.receiver cs with _ | ⟨c⟩ | ⟨front, tied⟩
  · simp [verdict_of_none hbest]
  · by_cases haccess : c.access.isAccessible
    · simp [verdict_of_unique hbest, haccess]
    · rw [verdict_of_unique hbest, if_neg haccess]
      constructor
      · rintro ⟨⟩
        exact ⟨c, rfl, haccess, rfl, rfl⟩
      · rintro ⟨_, ⟨⟩, -, rfl, rfl⟩
        rfl
  · simp [verdict_of_ambiguous hbest]

/-- Candidates of which none dominates are a tie, in their own tier. -/
theorem verdict_eq_ambiguous_iff {tier' : Tier} :
    (∃ infos, r.verdict call tier cs =
        .error ⟨r.summarize call, .ambiguousCandidates tier' infos⟩) ↔
      tier' = tier ∧ cs ≠ [] ∧
        ¬ ∃ c, Selection.Dominates (r.compareCandidates call.receiver) cs c := by
  rw [← selectBest_eq_ambiguous_iff h]
  rcases hbest : r.selectBest call.receiver cs with _ | ⟨c⟩ | ⟨front, tied⟩
  · simp [verdict_of_none hbest]
  · by_cases haccess : c.access.isAccessible
    · simp [verdict_of_unique hbest, haccess]
    · simp [verdict_of_unique hbest, haccess]
  · simp [verdict_of_ambiguous hbest, eq_comm]

omit h in
theorem verdict_eq_noViable_iff :
    r.verdict call tier cs = .error ⟨r.summarize call, .noViableCandidate⟩ ↔ cs = [] := by
  rw [← selectBest_eq_none_iff (r := r) call.receiver]
  rcases hbest : r.selectBest call.receiver cs with _ | ⟨c⟩ | ⟨front, tied⟩
  · simp [verdict_of_none hbest]
  · by_cases haccess : c.access.isAccessible
    · simp [verdict_of_unique hbest, haccess]
    · simp [verdict_of_unique hbest, haccess]
  · simp [verdict_of_ambiguous hbest]

end

/-! ## Candidates -/

theorem matchMember?_eq_some {c : Callable} {receiver : DataType} {args : List DataType}
    {fit : Match} (h : r.matchMember? c receiver args = some fit) :
    c.isMember = true ∧ (receiver.isConst = true → c.isConst = true) ∧
      r.matchArgs? c.params args = some fit.args := by
  rw [matchMember?] at h
  split_ifs at h with hrefused
  obtain ⟨slots, hslots, rfl⟩ := Option.map_eq_some_iff.1 h
  simp only [Bool.or_eq_true, Bool.not_eq_true', Bool.and_eq_true, not_or, not_and] at hrefused
  exact ⟨by simpa using hrefused.1, fun hconst => by simpa using hrefused.2 hconst, hslots⟩

/-- What stands was a candidate, and the query it hangs on was answered with
    yes, in a state that is as good as all states on the way. -/
theorem answered_of_mem_settleAll {α σ : Type} {good : σ → Prop} {ask : Query → StateM σ Bool}
    (hask : ∀ q s, good s → good (ask q s).2) {cs : List (Contingent α)} {s : σ} (hs : good s)
    {a : α} (h : a ∈ (Contingent.settleAll ask cs s).1) :
    ∃ c ∈ cs, c.value = a ∧ ∀ q ∈ c.given, ∃ s', good s' ∧ (ask q s').1 = true := by
  induction cs generalizing s with
  | nil => cases h
  | cons c cs ih =>
    rw [Contingent.settleAll_cons, List.mem_append, Option.mem_toList] at h
    obtain ⟨value, given⟩ := c
    rcases h with hfirst | hrest
    · refine ⟨⟨value, given⟩, List.mem_cons_self, ?_⟩
      cases given with
      | none => exact ⟨Option.some.inj hfirst, fun _ hq => by cases hq⟩
      | some q =>
        rw [Contingent.settle_some] at hfirst
        split_ifs at hfirst with hyes
        refine ⟨Option.some.inj hfirst, fun q' hq' => ⟨s, hs, ?_⟩⟩
        cases hq'
        exact hyes
    · have hafter : good ((⟨value, given⟩ : Contingent α).settle ask s).2 := by
        cases given with
        | none => exact hs
        | some q => exact hask q s hs
      obtain ⟨c', hc', hstands⟩ := ih hafter hrest
      exact ⟨c', List.mem_cons_of_mem _ hc', hstands⟩

section
variable {call : CallSite} {memo : Memo} {c : Candidate}

theorem mem_memberCandidates {receiver : DataType} {name : String} {args : List DataType}
    {caller : Option Key} (h : c ∈ r.memberCandidates receiver name args caller) :
    c.callable ∈ r.membersNamed receiver.type name ∧ c.tier = .member ∧
      r.matchMember? c.callable receiver args = some c.fit ∧
      c.access = r.memberAccess c.callable caller := by
  rw [memberCandidates, List.mem_filterMap] at h
  obtain ⟨f, hf, hfit⟩ := h
  obtain ⟨fit, hmatch, rfl⟩ := Option.map_eq_some_iff.1 hfit
  exact ⟨hf, rfl, hmatch, rfl⟩

theorem mem_gatherMembers (h : c ∈ r.gatherMembers call) :
    c.tier = .member ∧ r.matchMember? c.callable call.receiver call.args = some c.fit ∧
      c.access = r.memberAccess c.callable call.caller :=
  (mem_memberCandidates h).2

/-- What is known of a gathered extension, where queries keep the memo good. -/
theorem answered_of_mem_gatherExtensions (good : Memo → Prop)
    (hgood : ∀ q memo, good memo → good (r.satisfies q memo).2) (hmemo : good memo)
    (h : c ∈ (r.gatherExtensions call memo).1) :
    c.tier = .extension ∧ c.callable.isExtension = true ∧
      c.callable ∈ r.visibleFunctions call.path call.name ∧
      ∃ fit, r.matchFree? c.callable call.receiver call.args = some fit ∧ c.fit = fit.value ∧
        ∀ q ∈ fit.given, ∃ memo', good memo' ∧ (r.satisfies q memo').1 = true := by
  obtain ⟨d, hd, rfl, hanswered⟩ := answered_of_mem_settleAll hgood hmemo h
  rw [extensionCandidates, freeCandidates, List.mem_filterMap] at hd
  obtain ⟨f, hf, hfit⟩ := hd
  obtain ⟨fit, hmatch, rfl⟩ := Option.map_eq_some_iff.1 hfit
  obtain ⟨hvisible, hext⟩ := List.mem_filter.1 hf
  exact ⟨rfl, hext, hvisible, fit, hmatch, rfl, hanswered⟩

theorem mem_gatherExtensions (h : c ∈ (r.gatherExtensions call memo).1) :
    c.tier = .extension ∧ c.callable.isExtension = true ∧
      c.callable ∈ r.visibleFunctions call.path call.name ∧
      ∃ fit, r.matchFree? c.callable call.receiver call.args = some fit ∧ c.fit = fit.value := by
  obtain ⟨htier, hext, hvisible, fit, hmatch, hfit, -⟩ :=
    answered_of_mem_gatherExtensions (fun _ => True) (fun _ _ _ => trivial) trivial h
  exact ⟨htier, hext, hvisible, fit, hmatch, hfit⟩

theorem tier_of_mem_gatherMembers : ∀ c ∈ r.gatherMembers call, c.tier = .member :=
  fun _ hc => (mem_gatherMembers hc).1

/-! ## The tier of a call -/

/-- **Where members fit a call, they alone decide it**, and no query is asked. -/
theorem resolve_of_members (h : r.gatherMembers call ≠ []) (memo : Memo) :
    r.resolve call memo = (r.verdict call .member (r.gatherMembers call), memo) := by
  have hfound : r.gather call = pure { members := r.gatherMembers call } := by
    simp [gather, h]
  rw [resolve, hfound, pure_bind, if_neg (by simpa using h)]
  rfl

theorem resolve_of_no_members (h : r.gatherMembers call = []) (memo : Memo) :
    r.resolve call memo =
      (r.verdict call .extension (r.gatherExtensions call memo).1,
        (r.gatherExtensions call memo).2) := by
  have hfound : r.gather call = (do
      let extensions ← r.gatherExtensions call
      pure { extensions }) := by
    simp [gather, h]
  rw [resolve, hfound]
  rfl

/-- The candidates among which a call is decided, given the answers kept so
    far. -/
def candidates (r : Registry) (call : CallSite) (memo : Memo) : List Candidate :=
  if r.gatherMembers call = [] then (r.gatherExtensions call memo).1 else r.gatherMembers call

theorem candidates_cases (r : Registry) (call : CallSite) (memo : Memo) :
    r.candidates call memo = r.gatherMembers call ∨
      r.candidates call memo = (r.gatherExtensions call memo).1 := by
  rw [candidates]
  split_ifs
  · exact Or.inr rfl
  · exact Or.inl rfl

/-- The candidates are of one tier, and the verdict on them is the outcome. -/
theorem resolve_eq_verdict (r : Registry) (call : CallSite) (memo : Memo) :
    ∃ tier, (∀ c ∈ r.candidates call memo, c.tier = tier) ∧
      (r.resolve call memo).1 = r.verdict call tier (r.candidates call memo) := by
  rw [candidates]
  split_ifs with hmembers
  · exact ⟨.extension, fun c hc => (mem_gatherExtensions hc).1,
      congrArg Prod.fst (resolve_of_no_members hmembers memo)⟩
  · exact ⟨.member, tier_of_mem_gatherMembers,
      congrArg Prod.fst (resolve_of_members hmembers memo)⟩

/-- **A call is bound to what dominates its candidates**, if the caller may use
    it. -/
theorem resolve_eq_ok_iff {bound : BoundCall} : (r.resolve call memo).1 = .ok bound ↔
    ∃ c, Selection.Dominates (r.compareCandidates call.receiver) (r.candidates call memo) c ∧
      c.access.isAccessible ∧ bound = r.bind c call := by
  obtain ⟨tier, htier, hresolve⟩ := resolve_eq_verdict r call memo
  rw [hresolve]
  exact verdict_eq_ok_iff htier

/-- What dominates the candidates is reported, if the caller may not use it. -/
theorem resolve_eq_inaccessible_iff {info : CandidateInfo} {reason : Access} :
    (r.resolve call memo).1 =
        .error ⟨r.summarize call, .selectedButInaccessible info reason⟩ ↔
      ∃ c, Selection.Dominates (r.compareCandidates call.receiver) (r.candidates call memo) c ∧
        ¬ c.access.isAccessible ∧ info = r.candidateInfo c ∧ reason = c.access := by
  obtain ⟨tier, htier, hresolve⟩ := resolve_eq_verdict r call memo
  rw [hresolve]
  exact verdict_eq_inaccessible_iff htier

/-- A bound call calls what dominates the candidates. -/
theorem dominates_of_resolve_eq_ok {bound : BoundCall} (h : (r.resolve call memo).1 = .ok bound) :
    ∃ c, Selection.Dominates (r.compareCandidates call.receiver) (r.candidates call memo) c ∧
      bound = r.bind c call := by
  obtain ⟨c, hc, -, hbound⟩ := resolve_eq_ok_iff.1 h
  exact ⟨c, hc, hbound⟩

end

end Registry

end MethodResolution
