/-
  Method resolution — trailing defaults.

  An overload may take what another one takes and then some more, all with
  defaults.  A call that does not reach these fits both or neither, and it fits
  them alike: what is left to a default costs nothing and counts for nothing.

  * `matchArgs?_append`: the parameters that a call does not reach only add empty
    slots to the match;
  * `Siblings`: members of one class, or visible extensions, that differ in
    nothing that the ranking looks at.  So they match alike
    (`matchCall?_of_addsDefaults`) and compare as equal (`compareCandidates_eq`);
  * `Siblings.meansCopy_of_best`: where the one is a candidate, so is the other,
    and neither is better than it;
  * `resolve_trailingDefaults`: so such an overload never breaks a tie.  No call
    is bound to one of the two or refused because of one, unless it means a copy
    that another class holds (`MeansCopy`).
-/
import MethodResolution.Proofs.BoundCalls
import MethodResolution.Proofs.MemberIndex

namespace MethodResolution

/-! ## Matches with empty slots -/

namespace Match

variable {m m' : Match} {n : Nat}

/-- The match `m'` is `m`, apart from the callable that is matched and from `n`
    more parameters, which are left to their defaults. -/
structure ContinuedBy (n : Nat) (m m' : Match) : Prop where
  receiver_eq : m'.receiver = m.receiver
  args_eq : m'.args = m.args ++ List.replicate n none
  cost_eq : m'.cost = m.cost
  exactCount_eq : m'.exactCount = m.exactCount

/-- What the ranking reads of a match. -/
def rank (m : Match) : Option Conversion × Nat × Nat := (m.receiver, m.cost, m.exactCount)

/-- The match of a callable with `n` more parameters. -/
def withDefaults (m : Match) (key : Key) (n : Nat) : Match :=
  { m with key, args := m.args ++ List.replicate n none }

theorem continuedBy_withDefaults (m : Match) (key : Key) (n : Nat) :
    ContinuedBy n m (m.withDefaults key n) where
  receiver_eq := rfl
  args_eq := rfl
  cost_eq := rfl
  exactCount_eq := by
    rw [exactCount, withDefaults, List.countP_append, List.countP_replicate]
    rfl

theorem ContinuedBy.rank_eq (h : ContinuedBy n m m') : m'.rank = m.rank := by
  rw [rank, rank, h.receiver_eq, h.cost_eq, h.exactCount_eq]

end Match

theorem argsCost_replicate (n : Nat) : argsCost (List.replicate n none) = 0 := by
  induction n with
  | zero => rfl
  | succ n ih => rw [List.replicate_succ, argsCost, ih, Option.elim_none]

theorem argsCost_append_replicate (slots : List (Option Conversion)) (n : Nat) :
    argsCost (slots ++ List.replicate n none) = argsCost slots := by
  induction slots with
  | nil => exact argsCost_replicate n
  | cons slot slots ih => rw [List.cons_append, argsCost, argsCost, ih]

/-- Whether a value stands does not depend on the value. -/
theorem Contingent.isSome_settle_map {α β σ : Type} {ask : Query → StateM σ Bool} {s : σ}
    (c : Contingent α) (φ : α → β) :
    ((c.map φ).settle ask s).1.isSome = (c.settle ask s).1.isSome := by
  obtain ⟨value, given⟩ := c
  cases given with
  | none => rfl
  | some q =>
    rw [Contingent.map, settle_some, settle_some]
    split_ifs
    · rfl
    · rfl

namespace Registry

variable {r : Registry} {f g : Callable} {call : CallSite} {memo : Memo} {path : List String}
  {receiver : DataType} {args : List DataType} {ps more : List Param}

/-! ## Arguments -/

theorem acceptsCount_append (hmore : ∀ p ∈ more, p.hasDefault = true) {count : Nat}
    (hcount : count ≤ ps.length) : acceptsCount (ps ++ more) count = acceptsCount ps count := by
  have hnone : more.countP (!·.hasDefault) = 0 :=
    List.countP_eq_zero.2 fun p hp => by simp [hmore p hp]
  rw [acceptsCount, acceptsCount, List.countP_append, hnone, Nat.add_zero, List.length_append,
    decide_eq_true hcount, decide_eq_true (Nat.le_add_right_of_le hcount)]

theorem convertArgs_nil (ps : List Param) :
    r.convertArgs ps [] = some (List.replicate ps.length none) := by
  induction ps with
  | nil => rfl
  | cons p ps ih => rw [convertArgs, ih, Option.map_some, List.length_cons, List.replicate_succ]

theorem convertArgs_append (hlength : args.length ≤ ps.length) : r.convertArgs (ps ++ more) args =
    (r.convertArgs ps args).map (· ++ List.replicate more.length none) := by
  induction ps generalizing args with
  | nil =>
    rw [List.length_eq_zero_iff.1 (Nat.le_zero.1 hlength), List.nil_append, convertArgs_nil]
    rfl
  | cons p ps ih =>
    cases args with
    | nil =>
      rw [List.cons_append, convertArgs, ih (Nat.zero_le _), convertArgs, Option.map_map,
        Option.map_map]
      rfl
    | cons a args =>
      rw [List.cons_append, convertArgs, ih (Nat.le_of_succ_le_succ hlength), convertArgs,
        Option.map_bind]
      simp only [Option.map_map, Function.comp_def, List.cons_append]

/-- **Parameters that a call does not reach add empty slots**, if they have
    defaults. -/
theorem matchArgs?_append (hmore : ∀ p ∈ more, p.hasDefault = true)
    (hlength : args.length ≤ ps.length) : r.matchArgs? (ps ++ more) args =
      (r.matchArgs? ps args).map (· ++ List.replicate more.length none) := by
  rw [matchArgs?, matchArgs?, acceptsCount_append hmore hlength, convertArgs_append hlength]
  split_ifs
  · rfl
  · rfl

/-! ## Siblings -/

/-- How a call fits a member or a free function, and the query that this hangs
    on. -/
def matchCall? (r : Registry) (c : Callable) (receiver : DataType) (args : List DataType) :
    Option (Contingent Match) :=
  if c.isMember then (r.matchMember? c receiver args).map fun fit => ⟨fit, none⟩
  else r.matchFree? c receiver args

/-- Two overloads of one tier that differ in nothing but their parameters: members
    of one class, or extensions that can be seen from `path`. -/
inductive Siblings (r : Registry) (path : List String) (f g : Callable) : Prop
  | members {o : Key} : f ∈ r.methodsOf o → g ∈ r.methodsOf o → f.owner = some o →
      g.owner = some o → f.isConst = g.isConst → Siblings r path f g
  | extensions : f.isExtension = true → g.isExtension = true →
      f ∈ r.visibleFunctions path f.simpleName → g ∈ r.visibleFunctions path g.simpleName →
      f.constraint = g.constraint → Siblings r path f g

theorem Siblings.symm (h : r.Siblings path f g) : r.Siblings path g f := by
  cases h with
  | members hf hg hof hog hconst => exact .members hg hf hog hof hconst.symm
  | extensions hef heg hf hg hconstraint => exact .extensions heg hef hg hf hconstraint.symm

/-- `g` takes what `f` takes and then the parameters `more`, which all have
    defaults. -/
structure AddsDefaults (f g : Callable) (more : List Param) : Prop where
  params_eq : g.params = f.params ++ more
  ne_nil : more ≠ []
  hasDefault : ∀ p ∈ more, p.hasDefault = true

theorem AddsDefaults.ne (h : AddsDefaults f g more) : f ≠ g := by
  rintro rfl
  exact h.ne_nil (List.self_eq_append_right.1 h.params_eq)

/-- **Siblings match alike** as far as a call reaches. -/
theorem matchCall?_of_addsDefaults (hr : r.Built) (h : r.Siblings path f g)
    (hparams : AddsDefaults f g more) (hlength : args.length ≤ f.tail.length) :
    r.matchCall? g receiver args = (r.matchCall? f receiver args).map
      (·.map (·.withDefaults g.key more.length)) := by
  cases h with
  | members hf hg hof hog hconst =>
    have hfm := Callable.isMember_of_owner hof
    have hgm := Callable.isMember_of_owner hog
    rw [Callable.tail, if_pos hfm] at hlength
    rw [matchCall?, matchCall?, if_pos hfm, if_pos hgm, matchMember?, matchMember?, hfm, hgm,
      hconst, hparams.params_eq, matchArgs?_append hparams.hasDefault hlength]
    split_ifs
    · rfl
    · simp only [Option.map_map, Function.comp_def, argsCost_append_replicate]
      rfl
  | extensions hef heg hf hg hconstraint =>
    have hfm := Callable.isMember_of_isExtension hef
    have hgm := Callable.isMember_of_isExtension heg
    obtain ⟨k, -, hk⟩ := List.mem_filterMap.1 hf
    obtain ⟨-, p, hp, -⟩ := (hr.enrolled k f hk).of_isExtension hef
    -- Parameter zero, which takes the receiver, is one and the same.
    have hgp : g.params = p :: (f.tail ++ more) := by
      rw [hparams.params_eq, hp]
      rfl
    have htail : g.tail = f.tail ++ more := by
      rw [Callable.tail, hgm, hgp]
      rfl
    have hreceiver : r.matchReceiver? g receiver = r.matchReceiver? f receiver := by
      rw [matchReceiver?, matchReceiver?, hgp, hp, hconstraint]
      rfl
    rw [matchCall?, matchCall?, hfm, hgm, matchFree?, matchFree?, hfm, hgm, htail, hreceiver, hgp,
      hp, matchArgs?_append hparams.hasDefault hlength]
    simp only [Bool.false_eq_true, if_false, Bool.false_or, List.isEmpty_cons, Option.bind_map,
      Option.map_bind, Option.map_map, Function.comp_def, argsCost_append_replicate]
    rfl

/-! ## Candidates -/

theorem compareConstraints_self (a : Option Key) : r.compareConstraints a a = .eq := by
  have hswap := compareConstraints_swap (r := r) a a
  cases hcompare : r.compareConstraints a a with
  | eq => rfl
  | lt | gt =>
    rw [hcompare] at hswap
    cases hswap

/-- **Candidates that the ranking cannot tell apart are equal for it.** -/
theorem compareCandidates_eq {a b : Candidate} (hrank : a.fit.rank = b.fit.rank)
    (hconst : a.tier = .member → a.callable.isConst = b.callable.isConst)
    (hconstraint : a.constraint = b.constraint) : r.compareCandidates receiver a b = .eq := by
  obtain ⟨hreceiver, hcost, hexact⟩ : a.fit.receiver = b.fit.receiver ∧
      a.fit.cost = b.fit.cost ∧ a.fit.exactCount = b.fit.exactCount := by
    simpa [Match.rank] using hrank
  have hargs : compareArgs a.fit b.fit = .eq := by
    rw [compareArgs, hcost, hexact, Std.compare_self, Std.compare_self]
    rfl
  rw [compareCandidates, hargs]
  cases htier : a.tier with
  | member =>
    dsimp only
    rw [hconst htier, Std.compare_self, ite_self]
    rfl
  | extension =>
    dsimp only
    rw [hconstraint, compareConstraints_self, Match.receiverCost, Match.receiverCost, hreceiver,
      Std.compare_self]
    rfl

/-- A call ranks its matches with the two callables alike, if it matches them. -/
def RanksAlike (r : Registry) (receiver : DataType) (args : List DataType) (f g : Callable) :
    Prop :=
  (r.matchCall? f receiver args).map (·.map Match.rank) =
    (r.matchCall? g receiver args).map (·.map Match.rank)

theorem ranksAlike_of_addsDefaults (hr : r.Built) (h : r.Siblings path f g)
    (hparams : AddsDefaults f g more) (hlength : args.length ≤ f.tail.length) :
    r.RanksAlike receiver args f g := by
  rw [RanksAlike, matchCall?_of_addsDefaults hr h hparams hlength, Option.map_map]
  exact congrArg (fun φ => Option.map φ _) (funext fun fit => congrArg (Contingent.mk · _)
    (Match.continuedBy_withDefaults fit.value g.key more.length).rank_eq.symm)

theorem RanksAlike.exists_match (h : r.RanksAlike receiver args f g) (fit : Contingent Match)
    (hfit : r.matchCall? f receiver args = some fit) :
    ∃ fit', r.matchCall? g receiver args = some fit' ∧ fit'.given = fit.given ∧
      fit'.value.rank = fit.value.rank := by
  rw [RanksAlike, hfit, Option.map_some] at h
  obtain ⟨fit', hfit', heq⟩ := Option.map_eq_some_iff.1 h.symm
  have hgiven := congrArg Contingent.given heq
  have hrank := congrArg Contingent.value heq
  exact ⟨fit', hfit', hgiven, hrank⟩

/-! ## Selection -/

/-- The call means the member `m` as a copy: it means the members of a class that
    is not the owner. -/
def MeansCopy (r : Registry) (call : CallSite) (m : Callable) : Prop :=
  m ∈ r.membersNamed call.receiver.type call.name ∧
    ∃ o d, m.owner = some o ∧ r.declaring? call.receiver.type call.name = some d ∧ d.key ≠ o

/-- No call does where all classes were registered without members. -/
theorem Indexed.not_meansCopy (h : r.Indexed) (hr : r.Built) (call : CallSite) (m : Callable) :
    ¬ r.MeansCopy call m := by
  rintro ⟨hm, o, d, ho, hd, hne⟩
  have howner := h.owner_eq_declaring hr.key_of_class? hd hm
  exact hne (Option.some.inj (howner.symm.trans ho))

theorem mem_candidates_of_isMember {c : Candidate} (hc : c ∈ r.candidates call memo)
    (hmember : c.callable.isMember = true) :
    c ∈ r.gatherMembers call ∧ r.candidates call memo = r.gatherMembers call := by
  rcases r.candidates_cases call memo with hall | hall
  · exact ⟨hall ▸ hc, hall⟩
  · rw [hall] at hc
    obtain ⟨-, hext, -⟩ := mem_gatherExtensions hc
    cases hmember.symm.trans (Callable.isMember_of_isExtension hext)

theorem mem_candidates_of_isExtension {c : Candidate} (hc : c ∈ r.candidates call memo)
    (hext : c.callable.isExtension = true) : c ∈ (r.gatherExtensions call memo).1 ∧
      r.candidates call memo = (r.gatherExtensions call memo).1 := by
  rcases r.candidates_cases call memo with hall | hall
  · rw [hall] at hc
    obtain ⟨-, hmatch, -⟩ := mem_gatherMembers hc
    obtain ⟨hmember, -⟩ := matchMember?_eq_some hmatch
    cases hmember.symm.trans (Callable.isMember_of_isExtension hext)
  · exact ⟨hall ▸ hc, hall⟩

/-- A call that means one member of a class means all of this name, unless it
    means a copy. -/
theorem meansCopy_or_mem (hr : r.Built) {o : Key}
    (hf : f ∈ r.membersNamed call.receiver.type call.name) (ho : f.owner = some o)
    (hg : g ∈ r.methodsOf o) (hname : f.simpleName = g.simpleName) :
    r.MeansCopy call f ∨ g ∈ r.membersNamed call.receiver.type call.name := by
  have hmeant := hf
  rw [membersNamed] at hmeant ⊢
  cases hd : r.declaring? call.receiver.type call.name with
  | none =>
    rw [hd] at hmeant
    cases hmeant
  | some d =>
    rw [hd] at hmeant
    obtain ⟨-, hfname⟩ := List.mem_filter.1 hmeant
    by_cases hdo : d.key = o
    · obtain ⟨key, -, hkey⟩ := List.mem_filterMap.1 (List.mem_of_find?_eq_some hd)
      obtain ⟨d', hd', hgd⟩ := mem_methodsOf_iff.1 hg
      rw [← hdo, hr.key_of_class? key d hkey, hkey] at hd'
      cases hd'
      exact Or.inr (List.mem_filter.2 ⟨hgd, by rwa [← hname]⟩)
    · exact Or.inl ⟨hf, o, d, ho, hd, hdo⟩

/-- A call that fits one member of a class also fits another one of the same name
    and const, if it ranks the two alike. -/
theorem exists_member_sibling (hr : r.Built) {c : Candidate} {o : Key}
    (hc : c ∈ r.gatherMembers call) (hg : g ∈ r.methodsOf o) (ho : c.callable.owner = some o) (hgo : g.owner = some o)
    (hname : c.callable.simpleName = g.simpleName) (hconst : c.callable.isConst = g.isConst)
    (hrank : r.RanksAlike call.receiver call.args c.callable g) :
    r.MeansCopy call c.callable ∨ ∃ d ∈ r.gatherMembers call, d.callable = g ∧
      r.compareCandidates call.receiver c d = .eq := by
  obtain ⟨hnamed, htier, hmatch, -⟩ := mem_memberCandidates hc
  refine (meansCopy_or_mem hr hnamed ho hg hname).imp_right fun hgnamed => ?_
  obtain ⟨fit, hfit, -, hfitrank⟩ := hrank.exists_match ⟨c.fit, none⟩
    (by rw [matchCall?, if_pos (Callable.isMember_of_owner ho), hmatch]; rfl)
  rw [matchCall?, if_pos (Callable.isMember_of_owner hgo)] at hfit
  obtain ⟨m, hm, rfl⟩ := Option.map_eq_some_iff.1 hfit
  refine ⟨⟨g, .member, m, r.access .member g call.caller⟩, ?_, rfl,
    compareCandidates_eq hfitrank.symm (fun _ => hconst) ?_⟩
  · exact List.mem_filterMap.2 ⟨g, hgnamed, by rw [hm]; rfl⟩
  · rw [Candidate.constraint, Candidate.constraint, htier]

/-- A call that fits one visible extension also fits another one of the same name
    and constraint, if it ranks the two alike: they hang on the same query. -/
theorem exists_extension_sibling (hr : r.Built) (htransparent : r.Transparent)
    (hmemo : r.Consistent memo) {c : Candidate} (hc : c ∈ (r.gatherExtensions call memo).1)
    (hext : g.isExtension = true) (hg : g ∈ r.visibleFunctions call.path g.simpleName)
    (hname : c.callable.simpleName = g.simpleName)
    (hconstraint : c.callable.constraint = g.constraint)
    (hrank : r.RanksAlike call.receiver call.args c.callable g) :
    ∃ d ∈ (r.gatherExtensions call memo).1, d.callable = g ∧
      r.compareCandidates call.receiver c d = .eq := by
  obtain ⟨htier, hcext, hvisible, -⟩ := mem_gatherExtensions hc
  rw [hr.filed.simpleName_eq hvisible] at hname
  rw [gatherExtensions_fst htransparent hmemo, Contingent.standing] at hc ⊢
  obtain ⟨a, ha, rfl⟩ := List.mem_map.1 hc
  obtain ⟨ha, hanswered⟩ := List.mem_filter.1 ha
  rw [extensionCandidates, freeCandidates, List.mem_filterMap] at ha
  obtain ⟨f, -, hf⟩ := ha
  obtain ⟨fit, hfit, rfl⟩ := Option.map_eq_some_iff.1 hf
  obtain ⟨fit', hfit', hgiven, hfitrank⟩ := hrank.exists_match fit
    ((if_neg (Bool.eq_false_iff.1 (Callable.isMember_of_isExtension hcext))).trans hfit)
  have hmatch : r.matchFree? g call.receiver call.args = some fit' := by
    rw [← hfit', matchCall?, Callable.isMember_of_isExtension hext]
    rfl
  let d : Contingent Candidate :=
    fit'.map fun fit => ⟨g, .extension, fit, r.access .extension g call.caller⟩
  have hd : d ∈ r.extensionCandidates call := by
    refine List.mem_filterMap.2 ⟨g, List.mem_filter.2 ⟨by rwa [hname], hext⟩, ?_⟩
    rw [hmatch]
    rfl
  have hstands : d.given.all r.holds = true := by
    show fit'.given.all r.holds = true
    rw [hgiven]
    exact hanswered
  refine ⟨d.value, List.mem_map.2 ⟨d, List.mem_filter.2 ⟨hd, hstands⟩, rfl⟩, rfl,
    compareCandidates_eq hfitrank.symm (fun hmember => ?_) hconstraint⟩
  cases hmember

/-- **No sibling is the best candidate**, if the call ranks the two alike. -/
theorem Siblings.meansCopy_of_best (hr : r.Built) (htransparent : r.Transparent)
    (hmemo : r.Consistent memo) (h : r.Siblings call.path f g)
    (hname : f.simpleName = g.simpleName) (hne : f ≠ g)
    (hrank : r.RanksAlike call.receiver call.args f g) {c : Candidate} (hcf : c.callable = f)
    (hbest : r.Best call (r.candidates call memo) c) : r.MeansCopy call f := by
  have hc := hbest.1
  subst hcf
  have hnone : ¬ ∃ d ∈ r.candidates call memo, d.callable = g ∧
      r.compareCandidates call.receiver c d = .eq := by
    rintro ⟨d, hd, hdg, hequal⟩
    have hlt := hbest.lt_of_ne hd fun hdc => hne (hdc ▸ hdg)
    cases hequal.symm.trans hlt
  cases h with
  | members hf hg hof hog hconst =>
    obtain ⟨hmember, hall⟩ :=
      mem_candidates_of_isMember hc (Callable.isMember_of_owner hof)
    rw [hall] at hnone
    exact (exists_member_sibling hr hmember hg hof hog hname hconst hrank).resolve_right hnone
  | extensions hef heg hf hg hconstraint =>
    obtain ⟨hextension, hall⟩ := mem_candidates_of_isExtension hc hef
    rw [hall] at hnone
    exact absurd (exists_extension_sibling hr htransparent hmemo hextension heg hg hname hconstraint
      hrank) hnone

/-! ## Calls -/

/-- Whether a call fits is whether it is matched and the query holds. -/
theorem fits_fst (h : f.isMember = true ∨ f.isExtension = true) :
    (r.fits f receiver args memo).1 =
      (r.matchCall? f receiver args).any fun fit => (fit.settle r.satisfies memo).1.isSome := by
  rcases h with hmember | hext
  · rw [fits, matchCall?, if_pos hmember, if_pos hmember]
    cases r.matchMember? f receiver args <;> rfl
  · rw [fits, matchCall?, Callable.isMember_of_isExtension hext, if_neg Bool.false_ne_true, if_pos hext,
      if_neg Bool.false_ne_true]
    cases r.matchFree? f receiver args <;> rfl

theorem Siblings.isMember_or_isExtension (h : r.Siblings path f g) :
    f.isMember = true ∨ f.isExtension = true := by
  cases h with
  | members _ _ hof _ _ => exact Or.inl (Callable.isMember_of_owner hof)
  | extensions hef _ _ _ _ => exact Or.inr hef

/-- What is selected is neither `f` nor `g`, unless the call means a copy of it. -/
def PassesOver (r : Registry) (call : CallSite) (f g selected : Callable) : Prop :=
  selected = f ∨ selected = g → r.MeansCopy call selected

/-- The call does not tell the two callables apart: it fits both or neither, the
    second one with `n` more defaults, and what it is resolved to passes over
    both. -/
structure Ties (r : Registry) (call : CallSite) (memo : Memo) (n : Nat) (f g : Callable) :
    Prop where
  /-- The matches hang on the same query, convert receiver and arguments alike,
      and cost and count the same. -/
  matches_alike : Option.Rel
    (fun fit fit' => fit'.given = fit.given ∧ Match.ContinuedBy n fit.value fit'.value)
    (r.matchCall? f call.receiver call.args) (r.matchCall? g call.receiver call.args)
  fits_eq : (r.fits f call.receiver call.args memo).1 = (r.fits g call.receiver call.args memo).1
  /-- What is selected among the candidates passes over both. -/
  not_selected : ∀ c,
    r.selectBest call.receiver (r.candidates call memo) = some (.unique c) →
      r.PassesOver call f g c.callable
  /-- So does what the call is bound to. -/
  not_bound : ∀ bound, (r.resolve call memo).1 = .ok bound →
    ∃ c, r.Chosen call memo bound c ∧ r.PassesOver call f g c.callable
  /-- So does what the call is refused for, because the caller may not use it. -/
  not_refused : ∀ info reason,
    (r.resolve call memo).1 =
        .error ⟨r.summarize call, .selectedButInaccessible info reason⟩ →
      ∃ c, r.Best call (r.candidates call memo) c ∧ info = r.candidateInfo c ∧
        reason = c.access ∧ r.PassesOver call f g c.callable

/-- **Trailing defaults never break a tie**, in any run of inquiries, if as many
    queries may be in progress as there are constraints. -/
theorem resolve_trailingDefaults (r : Registry) (hr : r.Built)
    (h : r.concepts.size ≤ r.policy.depthLimit) (is : List Inquiry) (call : CallSite)
    (f g : Callable) (more : List Param) (hname : f.simpleName = g.simpleName)
    (hsiblings : r.Siblings call.path f g) (hparams : AddsDefaults f g more)
    (hlength : call.args.length ≤ f.tail.length) :
    r.Ties call (r.answerAll is ∅).2 more.length f g := by
  have hmemo : r.Consistent (r.answerAll is ∅).2 := answerAll_consistent is consistent_empty
  have hrank : r.RanksAlike call.receiver call.args f g :=
    ranksAlike_of_addsDefaults hr hsiblings hparams hlength
  have hmatch : r.matchCall? g call.receiver call.args = _ :=
    matchCall?_of_addsDefaults hr hsiblings hparams hlength
  have hpasses : ∀ c, r.Best call (r.candidates call (r.answerAll is ∅).2) c →
      r.PassesOver call f g c.callable := by
    rintro c hbest (hcf | hcg)
    · rw [hcf]
      exact hsiblings.meansCopy_of_best hr (Or.inr h) hmemo hname hparams.ne hrank hcf hbest
    · rw [hcg]
      exact hsiblings.symm.meansCopy_of_best hr (Or.inr h) hmemo hname.symm hparams.ne.symm
        hrank.symm hcg hbest
  refine ⟨?_, ?_, fun c hselected => ?_, fun bound hbound => ?_, fun info reason hrefused => ?_⟩
  · rw [hmatch]
    cases r.matchCall? f call.receiver call.args with
    | none => exact .none
    | some fit => exact .some ⟨rfl, Match.continuedBy_withDefaults _ _ _⟩
  · rw [fits_fst hsiblings.isMember_or_isExtension,
      fits_fst hsiblings.symm.isMember_or_isExtension, hmatch, Option.any_map]
    exact congrArg (Option.any · _) (funext fun fit => (Contingent.isSome_settle_map fit _).symm)
  · obtain ⟨tier, htier, -⟩ := resolve_eq_verdict r call (r.answerAll is ∅).2
    exact hpasses c ((selectBest_eq_unique_iff htier).1 hselected)
  · obtain ⟨c, hchosen⟩ := exists_chosen hbound
    exact ⟨c, hchosen, hpasses c hchosen.best⟩
  · obtain ⟨c, hbest, -, hinfo, hreason⟩ := resolve_eq_inaccessible_iff.1 hrefused
    exact ⟨c, hbest, hinfo, hreason, hpasses c hbest⟩

/-- A number that may be left out. -/
def spareNumber : Param := ⟨.ofKey Primitive.int32.key, true⟩

/-- A member that takes a number and more parameters. -/
def stretch (more : List Param) : Callable :=
  { Callable.member ⟨1⟩ "stretch" with params := ⟨.ofKey Primitive.int64.key, false⟩ :: more }

/-- An extension of all that rests. -/
def wake (more : List Param) : Callable :=
  { { Callable.free (.global "wake") with params := more }.withReceiver
      (.pointer Key.constrained) with constraint := some ⟨2⟩ }

/-- A class with two overloads of a member, and two overloads of a constrained
    extension; each time one of the two has one more parameter, or two. -/
def stretchedThings : Registry :=
  (Registry.initial {}).after
    [.primitives, .ofClass { name := .global "Thing", key := ⟨1⟩ },
      .constraint { name := .global "Rests", key := ⟨2⟩ },
      .member ⟨1⟩ (stretch []), .member ⟨1⟩ (stretch [spareNumber]),
      .free (wake []), .free (wake [spareNumber, spareNumber])]

def stretchCall : CallSite :=
  { receiver := .ofKey ⟨1⟩, name := "stretch", args := [.ofKey Primitive.int32.key] }

def wakeCall : CallSite := { receiver := .ofKey ⟨1⟩, name := "wake" }

theorem stretchedThings_ties : stretchedThings.Built ∧
    (∀ call m, ¬ stretchedThings.MeansCopy call m) ∧
    (stretchedThings.candidates stretchCall ∅).length = 2 ∧
    (stretchedThings.candidates wakeCall ∅).length = 2 ∧
    stretchedThings.Siblings [] ((stretch []).asMember ⟨1⟩)
      ((stretch [spareNumber]).asMember ⟨1⟩) ∧
    stretchedThings.Ties stretchCall ∅ 1 ((stretch []).asMember ⟨1⟩)
      ((stretch [spareNumber]).asMember ⟨1⟩) ∧
    stretchedThings.Siblings [] (wake []).asFree (wake [spareNumber, spareNumber]).asFree ∧
    stretchedThings.Ties wakeCall ∅ 2 (wake []).asFree
      (wake [spareNumber, spareNumber]).asFree := by
  have hbuilt : stretchedThings.Built := ⟨{}, _, rfl⟩
  have hindexed : stretchedThings.Indexed :=
    (indexed_initial {}).after ⟨fun _ => rfl, fun _ => rfl, trivial, trivial, trivial, trivial,
      trivial, trivial⟩
  have hmembers : stretchedThings.Siblings [] ((stretch []).asMember ⟨1⟩)
      ((stretch [spareNumber]).asMember ⟨1⟩) :=
    .members (o := ⟨1⟩) (by decide +kernel) (by decide +kernel) rfl rfl rfl
  have hextensions : stretchedThings.Siblings [] (wake []).asFree
      (wake [spareNumber, spareNumber]).asFree :=
    .extensions rfl rfl (by decide +kernel) (by decide +kernel) rfl
  exact ⟨hbuilt, hindexed.not_meansCopy hbuilt, by decide +kernel, by decide +kernel, hmembers,
    resolve_trailingDefaults _ hbuilt (by decide +kernel) [] stretchCall _ _ [spareNumber] rfl
      hmembers ⟨rfl, by decide, by decide⟩ (by decide),
    hextensions,
    resolve_trailingDefaults _ hbuilt (by decide +kernel) [] wakeCall _ _
      [spareNumber, spareNumber] rfl hextensions ⟨rfl, by decide, by decide⟩ (by decide)⟩

end Registry

end MethodResolution
