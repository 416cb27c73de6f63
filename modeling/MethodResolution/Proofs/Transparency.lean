/-
  Method resolution — runs of inquiries with and without a memo.

  * `satisfies_fst`, `gatherExtensions_fst`: what is asked is answered by the
    plain answers, whatever answers are kept;
  * `answer_tracks`: inquiries track each other as the queries do that come up
    on the way.  So an inquiry gets the answer that it would get if no answer
    were kept, and leaves the memo fit for the next one
    (`answer_tracks_unmemoized`);
  * `answerAll_keeps`: what holds of the memo after each query holds of it
    after a run of inquiries;
  * `answerAll_eq_unmemoized`: so in a run of inquiries no answer depends on
    the inquiries before it.
-/
import MethodResolution.Inquiry
import MethodResolution.Proofs.Memo
import MethodResolution.Registry.Declaration

namespace MethodResolution

namespace Registry

variable {r : Registry}

theorem satisfies_tracks_unmemoized (q : Query) :
    Tracks r.Consistent (fun _ => ¬ r.Transparent) (r.satisfies q) (r.unmemoized.satisfies q) := by
  have hholds : r.unmemoized.holds q = r.holds q := by
    rw [holds, judge_unmemoized]
    rfl
  rw [satisfies_of_not_memoize (r := r.unmemoized) rfl, hholds]
  exact satisfies_tracks q

section
variable (h : r.Transparent) {memo : Memo} (hmemo : r.Consistent memo)
include h hmemo

theorem satisfies_fst (q : Query) : (r.satisfies q memo).1 = r.holds q :=
  (((satisfies_tracks (m := Id) q).answers memo hmemo).resolve_left (not_not.2 h)).symm

theorem settle_fst {α : Type} (fit : Contingent α) :
    (fit.settle r.satisfies memo).1 = if fit.given.all r.holds then some fit.value else none := by
  have htrack : Tracks r.Consistent (fun _ => ¬ r.Transparent) (fit.settle r.satisfies)
      (fit.settle fun q => (pure (r.holds q) : Id Bool)) :=
    Contingent.settle_tracks fun q _ => satisfies_tracks q
  have hanswer := (htrack.answers memo hmemo).resolve_left (not_not.2 h)
  rw [Contingent.settle_pure] at hanswer
  exact hanswer.symm

theorem gatherExtensions_fst (call : CallSite) :
    (r.gatherExtensions call memo).1 =
      Contingent.standing r.holds (r.extensionCandidates call) := by
  have htrack : Tracks r.Consistent (fun _ => ¬ r.Transparent) (r.gatherExtensions call)
      (Contingent.settleAll (fun q => (pure (r.holds q) : Id Bool)) (r.extensionCandidates call)) :=
    Contingent.settleAll_tracks fun _ _ q _ => satisfies_tracks q
  have hanswer := (htrack.answers memo hmemo).resolve_left (not_not.2 h)
  rw [Contingent.settleAll_pure] at hanswer
  exact hanswer.symm

end

section
variable {good lost : Memo → Prop}
  (h : ∀ q, Tracks good lost (r.satisfies q) (r.unmemoized.satisfies q))
include h

theorem gather_tracks (call : CallSite) :
    Tracks good lost (r.gather call) (r.unmemoized.gather call) := by
  have htypes : r.unmemoized.types = r.types := rfl
  rw [gather, gather]
  unfold gatherExtensions
  rw [gatherMembers_congr htypes, extensionCandidates_congr htypes rfl]
  split
  · exact (Contingent.settleAll_tracks fun _ _ q _ => h q).map _
  · exact .ofPure _

theorem fits_tracks (c : Callable) (receiver : DataType) (args : List DataType) :
    Tracks good lost (r.fits c receiver args) (r.unmemoized.fits c receiver args) := by
  have htypes : r.unmemoized.types = r.types := rfl
  unfold fits
  rw [matchMember?_congr htypes, matchFree?_congr htypes]
  split
  · exact .ofPure _
  · split
    · cases r.matchFree? c receiver args with
      | none => exact .ofPure false
      | some fit => exact (Contingent.settle_tracks fun q _ => h q).map _
    · exact .ofPure false

theorem resolve_tracks (call : CallSite) :
    Tracks good lost (r.resolve call) (r.unmemoized.resolve call) := by
  have htypes : r.unmemoized.types = r.types := rfl
  unfold resolve
  rw [verdict_congr htypes rfl rfl]
  exact (gather_tracks h call).map _

/-- **Inquiries track each other as the queries do** that come up on the way. -/
theorem answer_tracks (i : Inquiry) :
    Tracks good lost (r.answer i) (r.unmemoized.answer i) := by
  cases i with
  | satisfies q => exact (h q).map _
  | fits c receiver args => exact (fits_tracks h c receiver args).map _
  | gather call => exact (gather_tracks h call).map _
  | resolve call => exact (resolve_tracks h call).map _

end

/-- **An inquiry is answered as if no answer were kept.** -/
theorem answer_tracks_unmemoized (i : Inquiry) :
    Tracks r.Consistent (fun _ => ¬ r.Transparent) (r.answer i) (r.unmemoized.answer i) :=
  answer_tracks satisfies_tracks_unmemoized i

/-- What holds of the memo after each query holds of it after a run of
    inquiries. -/
theorem answerAll_keeps {good : Memo → Prop}
    (h : ∀ q memo, good memo → good (r.satisfies q memo).2) (is : List Inquiry) {memo : Memo}
    (hmemo : good memo) : good (r.answerAll is memo).2 := by
  have htrack : ∀ q, Tracks good (fun _ => True) (r.satisfies q) (r.unmemoized.satisfies q) :=
    fun q => ⟨h q, fun _ _ _ => trivial, fun _ _ => Or.inl trivial⟩
  induction is generalizing memo with
  | nil => exact hmemo
  | cons i is ih => exact ih ((answer_tracks htrack i).good_after memo hmemo)

theorem answer_eq_unmemoized (h : r.Transparent) (i : Inquiry) {memo : Memo}
    (hmemo : r.Consistent memo) (memo' : Memo) :
    (r.answer i memo).1 = (r.unmemoized.answer i memo').1 := by
  rw [((answer_tracks_unmemoized i).answers memo hmemo).resolve_left (not_not.2 h)]
  rfl

/-- A run of inquiries leaves the memo fit for more. -/
theorem answerAll_consistent (is : List Inquiry) {memo : Memo}
    (hmemo : r.Consistent memo) : r.Consistent (r.answerAll is memo).2 :=
  answerAll_keeps (fun q => (satisfies_tracks_unmemoized q).good_after) is hmemo

theorem answerAll_fst (h : r.Transparent) (is : List Inquiry) {memo : Memo}
    (hmemo : r.Consistent memo) :
    (r.answerAll is memo).1 = is.map fun i => (r.unmemoized.answer i ∅).1 := by
  induction is generalizing memo with
  | nil => rfl
  | cons i is ih =>
    rw [List.map_cons, ← ih ((answer_tracks_unmemoized i).good_after memo hmemo),
      ← answer_eq_unmemoized h i hmemo]
    rfl

/-- **Kept answers are not noticed.**  In a run of inquiries that starts with an
    empty memo, every inquiry is answered as it is if no answers are kept, and
    on its own: also where evaluations are cut short by cycles. -/
theorem answerAll_eq_unmemoized (r : Registry) (is : List Inquiry)
    (h : r.concepts.size ≤ r.policy.depthLimit) :
    (r.answerAll is ∅).1 = is.map fun i => (r.unmemoized.answer i ∅).1 :=
  answerAll_fst (Or.inr h) is consistent_empty

/-- Two constraints on one type, each met by a free function that asks for the
    other, and a third one that everything meets. -/
def rollingThings : Registry :=
  (Registry.initial {}).after
    [.primitives, .ofClass { name := .global "Thing", key := ⟨1⟩ },
      .constraint { name := .global "Spins", key := ⟨2⟩, mode := .free,
                    signatures := [{ name := "spin" }] },
      .constraint { name := .global "Rolls", key := ⟨3⟩, mode := .free,
                    signatures := [{ name := "roll" }] },
      .constraint { name := .global "Rests", key := ⟨4⟩ },
      .free { (Callable.free (.global "spin")).withReceiver (.pointer Key.constrained) with
        constraint := some ⟨3⟩ },
      .free { (Callable.free (.global "roll")).withReceiver (.pointer Key.constrained) with
        constraint := some ⟨2⟩ },
      .free { (Callable.free (.global "roll")).withReceiver (.pointer Key.constrained) with
        constraint := some ⟨4⟩ }]

/-- Inquiries that meet the cycle of these constraints from both sides. -/
def rollingInquiries : List Inquiry :=
  [.satisfies ⟨⟨2⟩, ⟨1⟩⟩, .satisfies ⟨⟨3⟩, ⟨1⟩⟩,
    .resolve { receiver := .ofKey ⟨1⟩, name := "roll" }, .satisfies ⟨⟨2⟩, ⟨1⟩⟩]

theorem answerAll_rollingInquiries :
    rollingThings.concepts.size ≤ rollingThings.policy.depthLimit ∧
      (rollingThings.answerAll rollingInquiries ∅).1 =
        rollingInquiries.map fun i => (rollingThings.unmemoized.answer i ∅).1 :=
  ⟨by decide +kernel, answerAll_eq_unmemoized _ _ (by decide +kernel)⟩

end Registry

end MethodResolution
