/-
  Method resolution — kept answers.

  An answer is kept only if the evaluation that gave it was not cut short.
  Such an answer does not depend on where the query was asked, except in one
  way: another evaluation in progress might be met and cut it short.  So a
  kept answer is *settled* (`Settled`): evaluating the query without a memo
  gives it, and is not cut short, wherever no query in progress is kept.  That
  is all a lookup needs, for a query in progress is never kept: it was looked
  up before it came to be in progress, and while it is, further evaluations of
  it are cut short.

  * `evaluate_answered`: under any limit, evaluation keeps a memo sound, and its
    answer is settled unless it is tainted;
  * `satisfies_tracks`: where the policy allows as many queries in progress as
    there are constraints (`Transparent`), kept answers change no answer.
-/
import MethodResolution.Proofs.Evaluation

namespace MethodResolution

namespace Memo

/-- No answer to a query in progress is kept. -/
def Avoids (memo : Memo) (pending : List Query) : Prop := ∀ p ∈ pending, memo.get? p = none

/-- What `memo` keeps, `memo'` keeps, too. -/
def Within (memo memo' : Memo) : Prop :=
  ∀ q answer, memo.get? q = some answer → memo'.get? q = some answer

variable {memo memo' memo'' : Memo} {pending : List Query} {q : Query} {answer : Bool}

theorem Within.refl : Within memo memo := fun _ _ h => h

theorem Within.trans (h : Within memo memo') (h' : Within memo' memo'') : Within memo memo'' :=
  fun q answer hq => h' q answer (h q answer hq)

theorem Within.insert (h : memo.get? q = none) : Within memo (memo.insert q answer) := by
  intro q' answer' hq'
  rw [Table.get?_insert]
  split_ifs with heq
  · rw [heq, h] at hq'
    cases hq'
  · exact hq'

theorem Avoids.of_within (h : Within memo memo') (hp : Avoids memo' pending) :
    Avoids memo pending := by
  intro p hmem
  cases hget : memo.get? p with
  | none => rfl
  | some answer =>
    have hkept := h p answer hget
    rw [hp p hmem] at hkept
    cases hkept

theorem Avoids.cons (hq : memo.get? q = none) (h : Avoids memo pending) :
    Avoids memo (q :: pending) :=
  List.forall_mem_cons.2 ⟨hq, h⟩

theorem Avoids.insert (h : Avoids memo pending) (hq : q ∉ pending) :
    Avoids (memo.insert q answer) pending := by
  intro p hp
  have hne : p ≠ q := by
    rintro rfl
    exact hq hp
  rw [Table.get?_insert_of_ne _ _ hne]
  exact h p hp

end Memo

namespace Registry

variable {r : Registry}

/-! ## Settled answers -/

/-- Wherever no query in progress is kept, evaluating `q` without a memo gives
    `answer` and is not cut short, if as many queries may be in progress as
    there are constraints. -/
def Settled (r : Registry) (memo : Memo) (q : Query) (answer : Bool) : Prop :=
  ∀ depth pending, r.Stack q.type pending → r.concepts.size ≤ depth + pending.length →
    memo.Avoids pending → r.unmemoized.evaluate depth pending q = pure answer

theorem Settled.of_within {memo memo' : Memo} {q : Query} {answer : Bool}
    (h : memo.Within memo') (hs : r.Settled memo q answer) : r.Settled memo' q answer :=
  fun depth pending hstack hdepth havoids => hs depth pending hstack hdepth (havoids.of_within h)

theorem judge_unmemoized : r.unmemoized.judge = r.judge :=
  judge_congr rfl rfl fun _ _ => .rfl

theorem conceptHolds_unmemoized {m : Type → Type} [Monad m] (ask : Query → m Bool) :
    r.unmemoized.conceptHolds ask = r.conceptHolds ask := by
  have htypes : r.unmemoized.types = r.types := rfl
  funext c k
  exact conceptHolds_congr htypes rfl (fun _ _ _ => rfl) ask k

theorem Settled.judge_eq {memo : Memo} {q : Query} {answer : Bool} (h : r.Settled memo q answer)
    {depth : Nat} {pending : List Query} (hstack : r.Stack q.type pending)
    (hdepth : r.concepts.size ≤ depth + pending.length) (havoids : memo.Avoids pending) :
    r.judge depth pending q = answer := by
  have hplain := evaluate_of_not_memoize (r := r.unmemoized) rfl depth pending q {}
  rw [h depth pending hstack hdepth havoids, judge_unmemoized] at hplain
  exact hplain.1.symm

/-- The memo is sound while the queries `pending` are in progress: what it
    keeps is settled, and it keeps none of them. -/
structure Sound (r : Registry) (pending : List Query) (memo : Memo) : Prop where
  settled : ∀ q answer, memo.get? q = some answer → r.Settled memo q answer
  avoids : memo.Avoids pending

theorem sound_empty : r.Sound [] ∅ :=
  ⟨fun _ _ h => absurd h (by simp), fun _ hp => absurd hp List.not_mem_nil⟩

/-- A settled answer may be kept. -/
theorem Sound.insert {pending : List Query} {memo : Memo} {q : Query} {answer : Bool}
    (h : r.Sound pending memo) (hnew : memo.get? q = none) (hq : q ∉ pending)
    (hanswer : r.Settled (memo.insert q answer) q answer) :
    r.Sound pending (memo.insert q answer) where
  settled q' answer' hget := by
    rw [Table.get?_insert] at hget
    split_ifs at hget with heq
    · cases hget
      exact heq ▸ hanswer
    · exact (h.settled q' answer' hget).of_within (.insert hnew)
  avoids := h.avoids.insert hq

/-! ## Evaluation with a memo -/

/-- What is known of the outcome `out` of evaluating `q` from the state `s`. -/
structure Answered (r : Registry) (depth : Nat) (pending : List Query) (q : Query) (s : Progress)
    (out : Bool × Progress) : Prop where
  sound : r.Sound pending out.2.memo
  within : s.memo.Within out.2.memo
  tainted : s.tainted = true → out.2.tainted = true
  settled : out.2.tainted = false → r.Settled out.2.memo q out.1
  judged : r.concepts.size ≤ depth + pending.length → out.1 = r.judge depth pending q

/-- An evaluation that is cut short leaves the memo alone. -/
theorem answered_of_cut {depth : Nat} {pending : List Query} {q : Query} {s : Progress}
    (hsound : r.Sound pending s.memo) (h : depth = 0 ∨ q ∈ pending) :
    r.Answered depth pending q s (false, { s with tainted := true }) where
  sound := hsound
  within := .refl
  tainted _ := rfl
  settled h := by cases h
  judged _ := (judge_of_cut h).symm

theorem answered_of_kept {depth : Nat} {pending : List Query} {q : Query} {s : Progress}
    {answer : Bool} (hstack : r.Stack q.type pending) (hsound : r.Sound pending s.memo)
    (h : s.memo.get? q = some answer) : r.Answered depth pending q s (answer, s) where
  sound := hsound
  within := .refl
  tainted h := h
  settled _ := hsound.settled q answer h
  judged hdepth := ((hsound.settled q answer h).judge_eq hstack hdepth hsound.avoids).symm

theorem answered_of_unknown {depth : Nat} {pending : List Query} {q : Query} {s : Progress}
    (hsound : r.Sound pending s.memo) (h : r.concept? q.constraint = none) :
    r.Answered depth pending q s (false, s) where
  sound := hsound
  within := .refl
  tainted h := h
  settled _ depth pending _ _ _ := evaluate_of_unknown rfl depth pending h
  judged _ := (judge_of_unknown h).symm

section
variable {depth : Nat} {pending : List Query} {q : Query}

-- Queries are answered below `q` as is to be shown of all queries.
variable (hask : ∀ q' s, q'.type = q.type → r.Sound (q :: pending) s.memo →
  r.Answered depth (q :: pending) q' s (r.evaluate depth (q :: pending) q' s))
include hask

/-- Below `q`, answers track the plain ones, if enough queries may be in
    progress; else they are all given up. -/
theorem evaluate_tracks_judge (memo : Memo) {q' : Query} (hq' : q'.type = q.type) :
    Tracks (fun s : Progress => r.Sound (q :: pending) s.memo ∧ memo.Within s.memo)
      (fun _ => ¬ r.concepts.size ≤ depth + (q :: pending).length)
      (r.evaluate depth (q :: pending) q')
      (pure (r.judge depth (q :: pending) q') : Id Bool) where
  good_after s hs :=
    ⟨(hask q' s hq' hs.1).sound, hs.2.trans (hask q' s hq' hs.1).within⟩
  lost_after _ _ hlost := hlost
  answers s hs := by
    by_cases hdepth : r.concepts.size ≤ depth + (q :: pending).length
    · exact Or.inr (congrArg pure ((hask q' s hq' hs.1).judged hdepth).symm)
    · exact Or.inl hdepth

/-- Below `q`, answers track those of a second evaluation of `q`, without a
    memo and with other queries `pending'` in progress.  It is lost when the
    first one is tainted, or comes to keep one of `pending'`. -/
theorem evaluate_tracks_unmemoized (memo : Memo) {depth' : Nat} {pending' : List Query}
    (hstack : r.Stack q.type (q :: pending'))
    (hdepth : r.concepts.size ≤ depth' + (q :: pending').length)
    {q' : Query} (hq' : q'.type = q.type) :
    Tracks (fun s : Progress => r.Sound (q :: pending) s.memo ∧ memo.Within s.memo)
      (fun s => s.tainted = true ∨ ¬ s.memo.Avoids (q :: pending'))
      (r.evaluate depth (q :: pending) q')
      (r.unmemoized.evaluate depth' (q :: pending') q') where
  good_after s hs :=
    ⟨(hask q' s hq' hs.1).sound, hs.2.trans (hask q' s hq' hs.1).within⟩
  lost_after s hs hlost := by
    rcases hlost with htainted | havoids
    · exact Or.inl ((hask q' s hq' hs.1).tainted htainted)
    · exact Or.inr fun h => havoids (h.of_within (hask q' s hq' hs.1).within)
  answers s hs := by
    have hanswered := hask q' s hq' hs.1
    by_cases htainted : (r.evaluate depth (q :: pending) q' s).2.tainted = true
    · exact Or.inl (Or.inl htainted)
    by_cases havoids : (r.evaluate depth (q :: pending) q' s).2.memo.Avoids (q :: pending')
    · refine Or.inr (hanswered.settled (by simpa using htainted) depth' _ ?_ hdepth havoids)
      rwa [hq']
    · exact Or.inl (Or.inr havoids)

/-- An answer that was not tainted is settled once it is kept. -/
theorem settled_of_run {c : Concept} {s : Progress} (hc : r.concept? q.constraint = some c)
    (hsound : r.Sound (q :: pending) s.memo) {answer : Bool} {after : Progress}
    (hrun : r.conceptHolds (r.evaluate depth (q :: pending)) c q.type s = (answer, after))
    (huntainted : after.tainted = false) :
    r.Settled (after.memo.insert q answer) q answer := by
  intro depth' pending' hstack' hdepth' havoids'
  have hq' : q ∉ pending' := by
    intro hmem
    have hnone := havoids' q hmem
    simp at hnone
  cases depth' with
  | zero => exact absurd (hstack'.mem_of_full hc (by omega)) hq'
  | succ depth' =>
    have hdepth : r.concepts.size ≤ depth' + (q :: pending').length := by
      rw [List.length_cons]
      omega
    have htrack := conceptHolds_tracks (r := r) (k := q.type) (fun q₁ hq₁ =>
      evaluate_tracks_unmemoized hask s.memo (hstack'.cons hc hq') hdepth hq₁) c
    have hstart : r.Sound (q :: pending) s.memo ∧ s.memo.Within s.memo := ⟨hsound, .refl⟩
    have hgood := htrack.good_after s hstart
    have hanswer := htrack.answers s hstart
    rw [hrun] at hgood hanswer
    have hnew : after.memo.get? q = none := hgood.1.avoids q List.mem_cons_self
    have havoids : after.memo.Avoids (q :: pending') :=
      .cons hnew (havoids'.of_within (.insert hnew))
    have hplain := hanswer.resolve_left (by simp [huntainted, havoids])
    rw [evaluate_succ (r := r.unmemoized) rfl hc hq', conceptHolds_unmemoized, hplain]
    exact keeping_pure rfl q answer

/-- **Testing the requirements keeps the memo sound**, and settles the answer
    unless it is tainted. -/
theorem answered_of_run {c : Concept} {s : Progress} (hc : r.concept? q.constraint = some c)
    (hq : q ∉ pending) (hsound : r.Sound pending s.memo) (hm : r.policy.memoize = true)
    (hnew : s.memo.get? q = none) :
    r.Answered (depth + 1) pending q s
      (r.keeping q (r.conceptHolds (r.evaluate depth (q :: pending)) c q.type) s) := by
  have hstart : r.Sound (q :: pending) s.memo ∧ s.memo.Within s.memo :=
    ⟨⟨hsound.settled, hsound.avoids.cons hnew⟩, .refl⟩
  have htrack := conceptHolds_tracks (r := r) (k := q.type)
    (fun q' hq' => evaluate_tracks_judge hask s.memo hq') c
  have hgood := htrack.good_after { s with tainted := false } hstart
  have hjudged := htrack.answers { s with tainted := false } hstart
  rcases hrun : r.conceptHolds (r.evaluate depth (q :: pending)) c q.type
    { s with tainted := false } with ⟨answer, after⟩
  rw [conceptHolds_pure, hrun] at hjudged
  rw [hrun] at hgood
  obtain ⟨hsound', hwithin⟩ := hgood
  have hnew' : after.memo.get? q = none := hsound'.avoids q List.mem_cons_self
  have hsound'' : r.Sound pending after.memo :=
    ⟨hsound'.settled, fun p hp => hsound'.avoids p (List.mem_cons_of_mem _ hp)⟩
  have hjudge : r.concepts.size ≤ depth + 1 + pending.length →
      answer = r.judge (depth + 1) pending q := by
    intro hdepth
    rw [judge_succ hc hq]
    exact (hjudged.resolve_left fun h => h (by rw [List.length_cons]; omega)).symm
  rw [keeping, hrun]
  cases htainted : after.tainted with
  | true =>
    simp only [htainted, Bool.not_true, Bool.and_false, Bool.or_true]
    exact ⟨hsound'', hwithin, fun _ => rfl, fun h => by simp at h, hjudge⟩
  | false =>
    simp only [hm, htainted, Bool.not_false, Bool.and_true, Bool.or_false]
    have hanswer := settled_of_run hask (s := { s with tainted := false }) hc hstart.1 hrun htainted
    exact ⟨hsound''.insert hnew' hq hanswer, hwithin.trans (.insert hnew'), fun h => h,
      fun _ => hanswer, hjudge⟩

end

/-- **Evaluation keeps a memo sound**, under any limit; its answer is settled
    unless it is tainted, and it is the plain one where enough queries may be
    in progress. -/
theorem evaluate_answered (hm : r.policy.memoize = true) (depth : Nat) (pending : List Query)
    (q : Query) (s : Progress) (hstack : r.Stack q.type pending) (hsound : r.Sound pending s.memo) :
    r.Answered depth pending q s (r.evaluate depth pending q s) := by
  induction depth using Nat.strongRecOn generalizing pending q s with
  | ind depth ih =>
    have hcourse := evaluate_course (r := r) depth pending q s
    generalize r.evaluate depth pending q s = out at hcourse ⊢
    have hkept? : r.kept? s.memo q = s.memo.get? q := by rw [kept?, if_pos hm]
    cases hcourse with
    | kept hkept => exact answered_of_kept hstack hsound (hkept? ▸ hkept)
    | unknown hc => exact answered_of_unknown hsound hc
    | cut hc hcut => exact answered_of_cut hsound hcut
    | @run n c hkept hc hq =>
      refine answered_of_run (fun q' s' hq' hs' => ?_) hc hq hsound hm (hkept? ▸ hkept)
      exact ih n (Nat.lt_succ_self n) _ q' s' (hq' ▸ hstack.cons hc hq) hs'

/-! ## Queries one after the other -/

/-- The memo is fit for queries that are asked while none is in progress. -/
def Consistent (r : Registry) (memo : Memo) : Prop :=
  r.policy.memoize = true → r.Sound [] memo

theorem consistent_empty : r.Consistent ∅ := fun _ => sound_empty

/-- Cycles alone may cut an evaluation short, or no answer is kept. -/
def Transparent (r : Registry) : Prop :=
  r.policy.memoize = false ∨ r.concepts.size ≤ r.policy.depthLimit

variable {m : Type → Type} [Monad m]

/-- **Kept answers change no answer**, unless the limit cuts evaluations short;
    and even then the memo stays fit for further queries. -/
theorem satisfies_tracks (q : Query) :
    Tracks r.Consistent (fun _ => ¬ r.Transparent) (r.satisfies q) (pure (r.holds q) : m Bool) where
  good_after memo hmemo hm := (evaluate_answered hm _ [] q { memo } (.nil _) (hmemo hm)).sound
  lost_after _ _ hlost := hlost
  answers memo hmemo := by
    by_cases h : r.Transparent
    · refine Or.inr (congrArg pure ?_)
      cases hm : r.policy.memoize with
      | false => rw [satisfies_of_not_memoize hm]; rfl
      | true =>
        have hdepth := h.resolve_left (by simp [hm])
        exact ((evaluate_answered hm _ [] q { memo } (.nil _) (hmemo hm)).judged hdepth).symm
    · exact Or.inl h

end Registry

end MethodResolution
