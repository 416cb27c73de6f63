/-
  Method resolution — what is reported for a tie of extensions.

  A tie is reported as seen from the front-runner of the scan: with it come the
  candidates that it does not beat.  One constraint may be stricter than another
  and a third one unrelated to both; the front-runner may then tie with a
  candidate that another one beats, and which candidate runs in front is a
  matter of order.

  * `ReportsTie`: what a report holds nevertheless.  Whoever is left out is
    beaten by the front-runner, so whoever is beaten by none is reported;
  * `transitive_of_layered`: where constraints unrelated to the same one are
    unrelated, the ranking has no circles.  Then those who are beaten by none
    alone are reported;
  * `resolve_reportsTie`: so the report of a call is the same in every order in
    which its functions are declared, if the ranking has no circles;
  * `not_forall_tied_alike`: if it has, the report is not the same, and names
    candidates that others beat.
-/
import MethodResolution.Proofs.Interleaving
import MethodResolution.Proofs.Minima
import Mathlib.Order.OrderDual

namespace MethodResolution

/-- What is reported, if the call is a tie of extensions. -/
def Resolution.tiedExtensions? : Resolution → Option (List CandidateInfo)
  | .error ⟨_, .ambiguousCandidates .extension infos⟩ => some infos
  | _ => none

namespace Registry

open Selection (Unbeaten Transitive minima)

variable {r r' : Registry} {receiver : DataType} {cs : List Candidate}

/-! ## Rankings without circles -/

theorem subsumes_trans {a b c : Key} (hab : r.subsumes a b = true) (hbc : r.subsumes b c = true) :
    r.subsumes a c = true := by
  simp only [subsumes, Bool.and_eq_true, decide_eq_true_eq, List.all_eq_true] at hab hbc ⊢
  exact ⟨hbc.1.trans hab.1, fun q hq => hab.2 q (hbc.2 q hq)⟩

theorem compareConstraints_eq_lt_iff {a b : Option Key} :
    r.compareConstraints a b = .lt ↔
      a = none ∧ b.isSome ∨ ∃ ka kb, a = some ka ∧ b = some kb ∧ r.subsumes ka kb = true := by
  cases a with
  | none => cases b <;> simp [compareConstraints]
  | some ka =>
    cases b with
    | none => simp [compareConstraints]
    | some kb =>
      simp only [compareConstraints]
      split_ifs with hab hba
      · simp [hab]
      · simp [hab]
      · simp [hab]

theorem compareConstraints_lt_trans {a b c : Option Key}
    (hab : r.compareConstraints a b = .lt) (hbc : r.compareConstraints b c = .lt) :
    r.compareConstraints a c = .lt := by
  rw [compareConstraints_eq_lt_iff] at hab hbc ⊢
  rcases hab with ⟨rfl, -⟩ | ⟨ka, kb, rfl, rfl, hsub⟩
  · rcases hbc with ⟨-, hc⟩ | ⟨_, kc, -, rfl, -⟩
    · exact Or.inl ⟨rfl, hc⟩
    · exact Or.inl ⟨rfl, rfl⟩
  · rcases hbc with ⟨hb, -⟩ | ⟨_, kc, hb, rfl, hsub'⟩
    · cases hb
    · cases hb
      exact Or.inr ⟨ka, kc, rfl, rfl, subsumes_trans hsub hsub'⟩

/-- Neither candidate has the stricter constraint, and both have one or neither
    has. -/
def Unrelated (r : Registry) (a b : Candidate) : Prop :=
  r.compareConstraints a.constraint b.constraint = .eq

instance (a b : Candidate) : Decidable (r.Unrelated a b) := inferInstanceAs (Decidable (_ = _))

/-- Candidates unrelated to the same one are unrelated. -/
def Layered (r : Registry) (cs : List Candidate) : Prop :=
  ∀ a ∈ cs, ∀ b ∈ cs, ∀ c ∈ cs, r.Unrelated a b → r.Unrelated b c → r.Unrelated a c

instance : Decidable (r.Layered cs) := inferInstanceAs (Decidable (∀ a ∈ cs, _))

theorem transitive_constraints (h : r.Layered cs) :
    Transitive (fun a b => r.compareConstraints a.constraint b.constraint) cs := by
  intro a ha b hb c hc hab hbc
  dsimp only at hab hbc ⊢
  intro hac
  have hca : r.compareConstraints c.constraint a.constraint = .lt := by
    rw [compareConstraints_swap, hac]
    rfl
  cases hab' : r.compareConstraints a.constraint b.constraint with
  | gt => exact hab hab'
  | lt =>
    have hcb := compareConstraints_lt_trans hca hab'
    rw [compareConstraints_swap, hcb] at hbc
    exact hbc rfl
  | eq =>
    cases hbc' : r.compareConstraints b.constraint c.constraint with
    | gt => exact hbc hbc'
    | lt =>
      have hba := compareConstraints_lt_trans hbc' hca
      rw [compareConstraints_swap, hba] at hab
      exact hab rfl
    | eq =>
      rw [h a ha b hb c hc hab' hbc'] at hac
      cases hac

theorem transitive_args (cs : List Candidate) :
    Transitive (fun a b => compareArgs a.fit b.fit) cs :=
  Transitive.then (fun _ _ _ _ => (Nat.compare_swap ..).symm)
    (Selection.transitive_compare fun a : Candidate => a.fit.cost)
    (Selection.transitive_compare fun a : Candidate => OrderDual.toDual a.fit.exactCount)

/-- **Where constraints are layered, the ranking of extensions has no
    circles.** -/
theorem transitive_of_layered (htier : ∀ c ∈ cs, c.tier = .extension) (h : r.Layered cs) :
    Transitive (r.compareCandidates receiver) cs := by
  have hlast : Transitive (fun a b : Candidate =>
      (r.compareConstraints a.constraint b.constraint).then
        (compare a.fit.receiverCost b.fit.receiverCost)) cs :=
    Transitive.then (fun a _ b _ => compareConstraints_swap _ _) (transitive_constraints h)
      (Selection.transitive_compare fun a : Candidate => a.fit.receiverCost)
  have hall : Transitive (fun a b : Candidate => (compareArgs a.fit b.fit).then
      ((r.compareConstraints a.constraint b.constraint).then
        (compare a.fit.receiverCost b.fit.receiverCost))) cs :=
    Transitive.then (fun a _ b _ => compareArgs_swap _ _) (transitive_args cs) hlast
  intro a ha b hb c hc
  simp only [compareCandidates, htier a ha, htier b hb]
  exact hall a ha b hb c hc

/-! ## Reports -/

/-- What is reported for a tie among the extensions `cs`. -/
structure ReportsTie (r : Registry) (receiver : DataType) (cs reported : List Candidate) :
    Prop where
  /-- The front-runner is reported first, and then all that it does not beat.
      There is one at least, and whoever is left out is beaten by it. -/
  split : ∃ front tied left, reported = front :: tied ∧ tied ≠ [] ∧
    cs.Perm (reported ++ left) ∧ (∀ c ∈ tied, r.compareCandidates receiver front c ≠ .lt) ∧
    ∀ c ∈ left, r.compareCandidates receiver front c = .lt
  /-- Whoever is beaten by none is reported. -/
  unbeaten : ∀ c ∈ cs, Unbeaten (r.compareCandidates receiver) cs c → c ∈ reported
  /-- Where the ranking has no circles, these alone are, in the order in which
      they were gathered. -/
  eq_minima : Transitive (r.compareCandidates receiver) cs →
    reported = minima (r.compareCandidates receiver) cs
  /-- It has none where constraints are layered. -/
  transitive : r.Layered cs → Transitive (r.compareCandidates receiver) cs

theorem reportsTie_of_selectBest {front : Candidate} {tied : List Candidate}
    (htier : ∀ c ∈ cs, c.tier = .extension)
    (h : r.selectBest receiver cs = some (.ambiguous front tied)) :
    r.ReportsTie receiver cs (front :: tied) where
  split := by
    obtain ⟨hne, htied, left, hperm, hleft⟩ := Selection.perm_of_best_eq_ambiguous h
    exact ⟨front, tied, left, rfl, hne, hperm, htied, hleft⟩
  unbeaten c hc hunbeaten := hunbeaten.mem_of_tie hc h
  eq_minima htrans := by
    have hbest := Selection.best_eq_ofList_minima
      (compareCandidates_antisymmetric (r := r) receiver htier) htrans
    exact Selection.toList_of_ofList (hbest.symm.trans h)
  transitive := transitive_of_layered htier

/-- The verdict on a tier is a tie of extensions if the tier is theirs and the
    selection is a tie. -/
theorem tiedExtensions?_verdict_eq_some_iff {call : CallSite} {tier : Tier}
    {infos : List CandidateInfo} :
    (r.verdict call tier cs).tiedExtensions? = some infos ↔ tier = .extension ∧
      ∃ front tied, r.selectBest call.receiver cs = some (.ambiguous front tied) ∧
        infos = (front :: tied).map r.candidateInfo := by
  rcases hbest : r.selectBest call.receiver cs with _ | ⟨c⟩ | ⟨front, tied⟩
  · simp [verdict_of_none hbest, Resolution.tiedExtensions?]
  · by_cases haccess : c.access.isAccessible
    · simp [verdict_of_unique hbest, haccess, Resolution.tiedExtensions?]
    · simp [verdict_of_unique hbest, haccess, Resolution.tiedExtensions?]
  · cases tier
    · simp [verdict_of_ambiguous hbest, Resolution.tiedExtensions?]
    · simp [verdict_of_ambiguous hbest, Resolution.tiedExtensions?, eq_comm]

/-- A call is a tie of extensions if no member fits it and the selection among
    the extensions is a tie. -/
theorem tiedExtensions?_resolve_eq_some_iff {call : CallSite} {memo : Memo}
    {infos : List CandidateInfo} :
    Resolution.tiedExtensions? (r.resolve call memo).1 = some infos ↔
      r.gatherMembers call = [] ∧ ∃ front tied,
        r.selectBest call.receiver (r.gatherExtensions call memo).1 =
          some (.ambiguous front tied) ∧ infos = (front :: tied).map r.candidateInfo := by
  by_cases hmembers : r.gatherMembers call = []
  · rw [resolve_of_no_members hmembers, tiedExtensions?_verdict_eq_some_iff]
    simp only [hmembers, true_and]
  · rw [resolve_of_members hmembers, tiedExtensions?_verdict_eq_some_iff]
    simp only [hmembers, reduceCtorEq, false_and]

/-! ## The order of declarations -/

/-- The same extensions are gathered in registries that agree. -/
theorem Agree.gatherExtensions_perm (h : r.Agree r') (hr : r.Transparent) {memo memo' : Memo}
    (hmemo : r.Consistent memo) (hmemo' : r'.Consistent memo') (call : CallSite) :
    (r.gatherExtensions call memo).1.Perm (r'.gatherExtensions call memo').1 := by
  rw [gatherExtensions_fst hr hmemo, gatherExtensions_fst (h.transparent hr) hmemo']
  exact h.standing_perm call

/-- The extensions gathered for a call after some inquiries. -/
def gatheredAfter (r : Registry) (is : List Inquiry) (call : CallSite) : List Candidate :=
  (r.gatherExtensions call (r.answerAll is ∅).2).1

/-- The outcome of a call after some inquiries. -/
def resolvedAfter (r : Registry) (is : List Inquiry) (call : CallSite) : Resolution :=
  (r.resolve call (r.answerAll is ∅).2).1

theorem tier_of_mem_gatheredAfter {is : List Inquiry} {call : CallSite} :
    ∀ c ∈ r.gatheredAfter is call, c.tier = .extension :=
  fun _ hc => (mem_gatherExtensions hc).1

/-- **Who is beaten by none is reported for a tie, in whatever order the
    functions are declared**, and nobody else is, where the ranking has no
    circles. -/
theorem resolve_reportsTie (r : Registry) (ds ds' : List Declaration) (is is' : List Inquiry)
    (call : CallSite) (infos : List CandidateInfo) (hr : r.Built) (hall : r.AcceptsAll ds)
    (hall' : r.AcceptsAll ds') (hplaces : Declaration.Rearranged ds ds')
    (h : Resolution.tiedExtensions? ((r.after ds).resolvedAfter is call) = some infos) :
    ∃ reported, infos = reported.map (r.after ds).candidateInfo ∧
      (r.after ds).ReportsTie call.receiver ((r.after ds).gatheredAfter is call) reported ∧
      ((r.after ds).Transparent →
        ∃ reported', Resolution.tiedExtensions? ((r.after ds').resolvedAfter is' call) =
            some (reported'.map (r.after ds').candidateInfo) ∧
          (r.after ds').ReportsTie call.receiver ((r.after ds').gatheredAfter is' call)
            reported' ∧
          ((r.after ds).gatheredAfter is call).Perm ((r.after ds').gatheredAfter is' call) ∧
          (Transitive ((r.after ds).compareCandidates call.receiver)
            ((r.after ds).gatheredAfter is call) → reported.Perm reported')) := by
  obtain ⟨hmembers, front, tied, hbest, rfl⟩ := tiedExtensions?_resolve_eq_some_iff.1 h
  have htier : ∀ c ∈ (r.after ds).gatheredAfter is call, c.tier = .extension :=
    tier_of_mem_gatheredAfter
  have htie := reportsTie_of_selectBest htier hbest
  refine ⟨front :: tied, rfl, htie, fun htransparent => ?_⟩
  have hagree := agree_of_rearranged hr hall hall' hplaces
  have hgathered : ((r.after ds).gatheredAfter is call).Perm
      ((r.after ds').gatheredAfter is' call) :=
    hagree.gatherExtensions_perm htransparent (answerAll_consistent is consistent_empty)
      (answerAll_consistent is' consistent_empty) call
  obtain ⟨front', tied', hbest'⟩ :=
    exists_ambiguous_of_perm htier hgathered ⟨front, tied, hbest⟩
  rw [selectBest_congr hagree.concepts] at hbest'
  have htie' := reportsTie_of_selectBest tier_of_mem_gatheredAfter hbest'
  have hmembers' : (r.after ds').gatherMembers call = [] := by
    rw [← gatherMembers_congr hagree.types]
    exact hmembers
  refine ⟨front' :: tied',
    tiedExtensions?_resolve_eq_some_iff.2 ⟨hmembers', front', tied', hbest', rfl⟩, htie',
    hgathered, fun htrans => ?_⟩
  have hsame := compareCandidates_congr hagree.concepts
  have htrans' := htrans.perm hgathered
  rw [hsame] at htrans'
  rw [htie.eq_minima htrans, htie'.eq_minima htrans', hsame]
  exact Selection.minima_perm hgathered

/-! ### Constraints of which two are related -/

/-- A class that rolls, spins and stops. -/
def tiedThings : Registry :=
  (initial {}).after
    [.primitives, .ofClass { name := .global "Thing", key := ⟨1⟩ },
      .member ⟨1⟩ (Callable.member ⟨1⟩ "roll"), .member ⟨1⟩ (Callable.member ⟨1⟩ "spin"),
      .member ⟨1⟩ (Callable.member ⟨1⟩ "stop")]

def declareRolls : Declaration :=
  .constraint { name := .global "Rolls", key := ⟨2⟩, signatures := [{ name := "roll" }] }

/-- To spin is to roll, too. -/
def declareSpins : Declaration :=
  .constraint
    { name := .global "Spins", key := ⟨3⟩, signatures := [{ name := "spin" }], refines := [⟨2⟩] }

/-- To stop has nothing to do with either. -/
def declareStops : Declaration :=
  .constraint { name := .global "Stops", key := ⟨4⟩, signatures := [{ name := "stop" }] }

/-- An extension of what meets a constraint, through a pointer that may be to
    const. -/
def turnOn (constraint : Key) (isConst : Bool) : Declaration :=
  .free { (Callable.free (.global "turn")).withReceiver ⟨Key.constrained, isConst, .pointer⟩ with
    constraint := some constraint }

def turnThing : CallSite := { receiver := .ofKey ⟨1⟩, name := "turn" }

/-- What is reported for the call after some declarations. -/
def tiedTurns (ds : List Declaration) : List CandidateInfo :=
  (Resolution.tiedExtensions? ((tiedThings.after ds).resolvedAfter [] turnThing)).getD []

/-- Of three extensions on constraints that have nothing to do with each other,
    the one that adds a const is left out. -/
def unrelatedTurns : List Declaration :=
  [declareRolls, turnOn ⟨2⟩ true, declareSpins, declareStops, turnOn ⟨4⟩ false, turnOn ⟨2⟩ false]

/-- The same extensions in other places. -/
def movedTurns : List Declaration :=
  [declareRolls, turnOn ⟨2⟩ false, declareSpins, turnOn ⟨2⟩ true, declareStops, turnOn ⟨4⟩ false]

theorem unrelatedTurns_reportsTie :
    tiedThings.AcceptsAll unrelatedTurns ∧ tiedThings.AcceptsAll movedTurns ∧
      (tiedTurns unrelatedTurns).length = 2 ∧
      ∃ reported reported',
        tiedTurns unrelatedTurns =
          reported.map (tiedThings.after unrelatedTurns).candidateInfo ∧
        reported =
          minima ((tiedThings.after unrelatedTurns).compareCandidates turnThing.receiver)
            ((tiedThings.after unrelatedTurns).gatheredAfter [] turnThing) ∧
        tiedTurns movedTurns =
          reported'.map (tiedThings.after movedTurns).candidateInfo ∧
        reported.Perm reported' := by
  have hall : tiedThings.AcceptsAll unrelatedTurns := by decide +kernel
  have hall' : tiedThings.AcceptsAll movedTurns := by decide +kernel
  have hplaces : Declaration.Rearranged unrelatedTurns movedTurns := ⟨by decide, by decide⟩
  have htied : Resolution.tiedExtensions?
      ((tiedThings.after unrelatedTurns).resolvedAfter [] turnThing) =
        some (tiedTurns unrelatedTurns) := by
    decide +kernel
  have hlayered : (tiedThings.after unrelatedTurns).Layered
      ((tiedThings.after unrelatedTurns).gatheredAfter [] turnThing) := by
    decide +kernel
  obtain ⟨reported, hinfos, htie, hother⟩ :=
    resolve_reportsTie tiedThings unrelatedTurns movedTurns [] [] turnThing _ ⟨{}, _, rfl⟩
      hall hall' hplaces htied
  obtain ⟨reported', hinfos', -, -, hsame⟩ := hother (Or.inr (by decide +kernel))
  have htrans := htie.transitive hlayered
  refine ⟨hall, hall', by decide +kernel, reported, reported', hinfos, htie.eq_minima htrans, ?_,
    hsame htrans⟩
  rw [tiedTurns, hinfos', Option.getD_some]

/-- Of two related extensions the second one is better.  The unrelated one comes
    first, and stays in front with both of the others. -/
def crossedTurns : List Declaration :=
  [declareRolls, declareSpins, declareStops, turnOn ⟨4⟩ false, turnOn ⟨2⟩ false, turnOn ⟨3⟩ false]

/-- The unrelated one comes last, and the better one of the others is in
    front. -/
def sortedTurns : List Declaration :=
  [declareRolls, declareSpins, declareStops, turnOn ⟨2⟩ false, turnOn ⟨3⟩ false, turnOn ⟨4⟩ false]

/-- A report is neither the same in every order nor free of candidates that
    others beat. -/
theorem not_forall_tied_alike :
    (¬ ∀ (r : Registry) (ds ds' : List Declaration) (call : CallSite)
        (infos infos' : List CandidateInfo), r.Built → r.AcceptsAll ds → r.AcceptsAll ds' →
        Declaration.Rearranged ds ds' →
        Resolution.tiedExtensions? ((r.after ds).resolvedAfter [] call) = some infos →
        Resolution.tiedExtensions? ((r.after ds').resolvedAfter [] call) = some infos' →
        ∀ i ∈ infos, i ∈ infos') ∧
    ¬ ∀ (r : Registry) (call : CallSite) (infos : List CandidateInfo), r.Built →
        Resolution.tiedExtensions? (r.resolvedAfter [] call) = some infos →
        ∀ c ∈ r.gatheredAfter [] call, r.candidateInfo c ∈ infos →
          ∀ d ∈ r.gatheredAfter [] call, r.compareCandidates call.receiver d c ≠ .lt := by
  have htied : Resolution.tiedExtensions?
      ((tiedThings.after crossedTurns).resolvedAfter [] turnThing) =
        some (tiedTurns crossedTurns) := by
    decide +kernel
  have htied' : Resolution.tiedExtensions?
      ((tiedThings.after sortedTurns).resolvedAfter [] turnThing) =
        some (tiedTurns sortedTurns) := by
    decide +kernel
  constructor
  · intro h
    have hsubset := h tiedThings crossedTurns sortedTurns turnThing _ _ ⟨{}, _, rfl⟩
      (by decide +kernel) (by decide +kernel) ⟨by decide, by decide⟩ htied htied'
    exact absurd hsubset (by decide +kernel)
  · intro h
    have hunbeaten := h (tiedThings.after crossedTurns) turnThing _
      ⟨{}, _, List.foldl_append.symm⟩ htied
    exact absurd hunbeaten (by decide +kernel)

end Registry

end MethodResolution
