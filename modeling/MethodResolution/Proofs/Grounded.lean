/-
  Method resolution — what kept answers rest on.

  An answer is kept when its dialogue is over and was not cut short.  By then
  every query of the dialogue is ready: it was kept before, or its constraint
  is not known.  So the answers of a memo rest on each other, and never in a
  circle.

  * `Grounded`: a memo that grew in this way, answer by answer;
  * `evaluate_growsTo`: under any limit, evaluation keeps a memo grounded, and
    a query that was not cut short is ready afterwards;
  * `foundAgain_of_grounded`: an evaluation that knows less than a grounded
    memo comes to the answers that this keeps, unless the limit cuts it short.
-/
import MethodResolution.Proofs.Cuts
import MethodResolution.Proofs.Memo

namespace MethodResolution

namespace Memo

/-- The answers of a memo, where all that is not kept counts as no. -/
def answers (memo : Memo) (q : Query) : Bool := (memo.get? q).getD false

variable {memo memo' : Memo} {q : Query} {answer : Bool}

theorem answers_of_get? (h : memo.get? q = some answer) : memo.answers q = answer := by
  rw [answers, h, Option.getD_some]

theorem Within.insert_insert (h : memo.Within memo') :
    Within (memo.insert q answer) (memo'.insert q answer) := by
  intro q' answer' hget
  rw [Table.get?_insert] at hget ⊢
  split_ifs with hq
  · rwa [if_pos hq] at hget
  · rw [if_neg hq] at hget
    exact h q' answer' hget

theorem Within.insert_left (h : memo.Within memo') (hq : memo'.get? q = some answer) :
    Within (memo.insert q answer) memo' := by
  intro q' answer' hget
  rw [Table.get?_insert] at hget
  split_ifs at hget with heq
  · rw [heq, ← hget]
    exact hq
  · exact h q' answer' hget

theorem Avoids.of_cons {p : Query} {pending : List Query} (h : memo.Avoids (p :: pending)) :
    memo.Avoids pending :=
  fun p' hp' => h p' (List.mem_cons_of_mem _ hp')

end Memo

namespace Registry

variable {r : Registry}

/-- Each answer of the memo is what its dialogue comes to with the answers that
    were kept before it. -/
inductive Grounded (r : Registry) : Memo → Prop
  | empty : Grounded r ∅
  | keep {memo : Memo} {q : Query} {c : Concept} : Grounded r memo → memo.get? q = none →
      r.concept? q.constraint = some c →
      (∀ q' ∈ (r.dialogue c q.type).asked memo.answers, (r.ready? memo q').isSome) →
      Grounded r (memo.insert q ((r.dialogue c q.type).result memo.answers))

/-- Only queries about known constraints are kept. -/
theorem Grounded.known {memo : Memo} (h : r.Grounded memo) {q : Query} {answer : Bool}
    (hq : memo.get? q = some answer) : ∃ c, r.concept? q.constraint = some c := by
  induction h with
  | empty => cases hq
  | @keep memo q' c _ _ hc _ ih =>
    rw [Table.get?_insert] at hq
    split_ifs at hq with heq
    · exact ⟨c, heq ▸ hc⟩
    · exact ih hq

section
variable (hm : r.policy.memoize = true)
include hm

theorem kept?_of_memoize (memo : Memo) (q : Query) : r.kept? memo q = memo.get? q := by
  rw [kept?, if_pos hm]

theorem get?_of_not_ready {memo : Memo} {q : Query} (h : r.ready? memo q = none) :
    memo.get? q = none := by
  rw [← kept?_of_memoize hm]
  exact (ready?_eq_none_iff.1 h).1

theorem ready?_of_new {memo : Memo} {q : Query} {c : Concept} (h : memo.get? q = none)
    (hc : r.concept? q.constraint = some c) : r.ready? memo q = none :=
  ready?_eq_none_iff.2 ⟨(kept?_of_memoize hm memo q).trans h, c, hc⟩

theorem ready?_of_get? {memo : Memo} {q : Query} {answer : Bool} (h : memo.get? q = some answer) :
    r.ready? memo q = some answer :=
  ready?_of_kept ((kept?_of_memoize hm memo q).trans h)

/-- What is ready is kept, or else it is no for want of a constraint. -/
theorem ready?_eq_some {memo : Memo} {q : Query} {answer : Bool}
    (h : r.ready? memo q = some answer) :
    memo.get? q = some answer ∨
      memo.get? q = none ∧ r.concept? q.constraint = none ∧ answer = false := by
  cases hget : memo.get? q with
  | some kept =>
    rw [ready?_of_get? hm hget] at h
    exact Or.inl h
  | none =>
    have hkept := (kept?_of_memoize hm memo q).trans hget
    cases hc : r.concept? q.constraint with
    | none =>
      rw [ready?_of_unknown hkept hc] at h
      exact Or.inr ⟨rfl, rfl, (Option.some.inj h).symm⟩
    | some c =>
      rw [ready?_eq_none_iff.2 ⟨hkept, c, hc⟩] at h
      cases h

theorem answers_of_ready {memo : Memo} {q : Query} {answer : Bool}
    (h : r.ready? memo q = some answer) : memo.answers q = answer := by
  rcases ready?_eq_some hm h with hget | ⟨hget, -, rfl⟩
  · exact Memo.answers_of_get? hget
  · rw [Memo.answers, hget, Option.getD_none]

/-- What is ready stays ready while the memo grows. -/
theorem ready?_of_within {memo memo' : Memo} (hg : r.Grounded memo') (hw : memo.Within memo')
    {q : Query} {answer : Bool} (h : r.ready? memo q = some answer) :
    r.ready? memo' q = some answer := by
  rcases ready?_eq_some hm h with hget | ⟨-, hc, rfl⟩
  · exact ready?_of_get? hm (hw q answer hget)
  · refine ready?_of_unknown ?_ hc
    rw [kept?_of_memoize hm]
    cases hget : memo'.get? q with
    | none => rfl
    | some kept =>
      obtain ⟨c, hc'⟩ := hg.known hget
      rw [hc] at hc'
      cases hc'

end

/-! ## Evaluation keeps a memo grounded -/

/-- The state `s'` comes after `s`: its memo is grounded, keeps more and none of
    the queries in progress, and a taint has stayed. -/
structure GrowsTo (r : Registry) (pending : List Query) (s s' : Progress) : Prop where
  grounded : r.Grounded s'.memo
  avoids : s'.memo.Avoids pending
  within : s.memo.Within s'.memo
  tainted : s.tainted = true → s'.tainted = true

theorem GrowsTo.refl {pending : List Query} {s : Progress} (hg : r.Grounded s.memo)
    (ha : s.memo.Avoids pending) : r.GrowsTo pending s s :=
  ⟨hg, ha, .refl, id⟩

theorem GrowsTo.trans {pending : List Query} {s s' s'' : Progress} (h : r.GrowsTo pending s s')
    (h' : r.GrowsTo pending s' s'') : r.GrowsTo pending s s'' :=
  ⟨h'.grounded, h'.avoids, h.within.trans h'.within, h'.tainted ∘ h.tainted⟩

section
variable (hm : r.policy.memoize = true)
include hm

/-- In a dialogue that is not cut short, every query is ready in the end, and
    the dialogue came to what the memo then says. -/
theorem run_growsTo {α : Type} {pending : List Query} {respond : Query → Evaluation Bool}
    (h : ∀ q s, r.Grounded s.memo → s.memo.Avoids pending →
      r.GrowsTo pending s (respond q s).2 ∧
        ((respond q s).2.tainted = false →
          r.ready? (respond q s).2.memo q = some (respond q s).1))
    (d : Dialogue α) {s : Progress} (hg : r.Grounded s.memo) (ha : s.memo.Avoids pending) :
    r.GrowsTo pending s (d.run respond s).2 ∧
      ((d.run respond s).2.tainted = false →
        (∀ q ∈ d.asked (d.run respond s).2.memo.answers,
          (r.ready? (d.run respond s).2.memo q).isSome) ∧
        d.result (d.run respond s).2.memo.answers = (d.run respond s).1) := by
  induction d generalizing s with
  | done a => exact ⟨.refl hg ha, fun _ => ⟨fun _ hq => absurd hq List.not_mem_nil, rfl⟩⟩
  | ask q next ih =>
    obtain ⟨hfirst, hready⟩ := h q s hg ha
    obtain ⟨hrest, hcovered⟩ := ih (respond q s).1 hfirst.grounded hfirst.avoids
    have hrun : (Dialogue.ask q next).run respond s =
      (next (respond q s).1).run respond (respond q s).2 := rfl
    rw [hrun]
    refine ⟨hfirst.trans hrest, fun huntainted => ?_⟩
    -- A taint stays, so a run that ends untainted never was tainted.
    have hfirst' : (respond q s).2.tainted = false := by
      rw [← Bool.not_eq_true]
      intro htainted
      rw [hrest.tainted htainted] at huntainted
      cases huntainted
    have hready' := ready?_of_within hm hrest.grounded hrest.within (hready hfirst')
    obtain ⟨hasked, hresult⟩ := hcovered huntainted
    rw [Dialogue.asked, Dialogue.result, answers_of_ready hm hready']
    exact ⟨List.forall_mem_cons.2 ⟨by rw [hready']; rfl, hasked⟩, hresult⟩

/-- Where a dialogue kept the memo grounded and was covered by it in the end,
    its answer may be kept. -/
theorem keeping_growsTo {pending : List Query} {q : Query} {c : Concept} {s after : Progress}
    {body : Evaluation Bool} {answer : Bool} (hc : r.concept? q.constraint = some c)
    (hq : q ∉ pending) (hbody : body { s with tainted := false } = (answer, after))
    (hgrows : r.GrowsTo (q :: pending) { s with tainted := false } after)
    (hcovered : after.tainted = false →
      (∀ q' ∈ (r.dialogue c q.type).asked after.memo.answers, (r.ready? after.memo q').isSome) ∧
        (r.dialogue c q.type).result after.memo.answers = answer) :
    r.GrowsTo pending s (r.keeping q body s).2 ∧
      ((r.keeping q body s).2.tainted = false →
        r.ready? (r.keeping q body s).2.memo q = some (r.keeping q body s).1) := by
  have hnew : after.memo.get? q = none := hgrows.avoids q List.mem_cons_self
  rw [keeping, hbody, hm]
  cases htainted : after.tainted with
  | true =>
    simp only [htainted, Bool.not_true, Bool.and_false, Bool.or_true]
    exact ⟨⟨hgrows.grounded, hgrows.avoids.of_cons, hgrows.within, fun _ => rfl⟩,
      fun h => by cases h⟩
  | false =>
    obtain ⟨hasked, hresult⟩ := hcovered htainted
    have hgrounded := hgrows.grounded.keep hnew hc hasked
    rw [hresult] at hgrounded
    simp only [htainted, Bool.not_false, Bool.and_true, Bool.or_false]
    exact ⟨⟨hgrounded, hgrows.avoids.of_cons.insert hq, hgrows.within.trans (.insert hnew), id⟩,
      fun _ => ready?_of_get? hm (Table.get?_insert_self _ _ _)⟩

/-- **Evaluation keeps a memo grounded**, under any limit.  A query that was not
    cut short is ready afterwards. -/
theorem evaluate_growsTo (depth : Nat) (pending : List Query) (q : Query) (s : Progress)
    (hg : r.Grounded s.memo) (ha : s.memo.Avoids pending) :
    r.GrowsTo pending s (r.evaluate depth pending q s).2 ∧
      ((r.evaluate depth pending q s).2.tainted = false →
        r.ready? (r.evaluate depth pending q s).2.memo q =
          some (r.evaluate depth pending q s).1) := by
  induction depth, pending, q, s using evaluate_induction (r := r) with
  | ready depth pending q s answer hready =>
    rw [evaluate_of_ready hready]
    exact ⟨.refl hg ha, fun _ => hready⟩
  | cycle depth pending q s hready hq =>
    rw [evaluate_of_cut hready (Or.inr hq)]
    exact ⟨⟨hg, ha, .refl, fun _ => rfl⟩, fun h => by cases h⟩
  | limit pending q s hready hq =>
    rw [evaluate_of_cut hready (Or.inl rfl)]
    exact ⟨⟨hg, ha, .refl, fun _ => rfl⟩, fun h => by cases h⟩
  | run depth pending q s c hready hc hq ih =>
    obtain ⟨hgrows, hcovered⟩ := run_growsTo hm ih (r.dialogue c q.type)
      (s := { s with tainted := false }) hg (ha.cons (get?_of_not_ready hm hready))
    rw [evaluate_of_run hready hc hq]
    exact keeping_growsTo hm hc hq rfl hgrows hcovered

end

/-! ## Kept answers found anew -/

/-- An evaluation that knows no more than the memo `kept` comes to the answers
    of `memo`, with any queries in progress that `memo` does not keep, unless
    the limit cuts it short.  It keeps nothing on its way that `kept` does
    not. -/
def FoundAgain (r : Registry) (kept memo : Memo) : Prop :=
  ∀ depth pending q answer s, s.memo.Within kept → memo.get? q = some answer →
    memo.Avoids pending → (∀ cut ∈ r.cutsFrom depth pending q s, cut.reason ≠ .limit) →
    (r.evaluate depth pending q s).1 = answer ∧ (r.evaluate depth pending q s).2.memo.Within kept

/-- If a body answers `q` as the memo `kept` does, so it is when its answer has
    been kept. -/
theorem keeping_within {kept : Memo} {q : Query} {answer : Bool} {body : Evaluation Bool}
    {s : Progress} (hq : kept.get? q = some answer)
    (h : (body { s with tainted := false }).1 = answer ∧
      (body { s with tainted := false }).2.memo.Within kept) :
    (r.keeping q body s).1 = answer ∧ (r.keeping q body s).2.memo.Within kept := by
  refine ⟨h.1, ?_⟩
  rw [keeping_memo, h.1]
  split_ifs with hkeep
  · exact h.2.insert_left hq
  · exact h.2

section
variable (hm : r.policy.memoize = true)
include hm

/-- Whatever is ready at two times is answered alike. -/
theorem ready?_unique {memo memo' kept : Memo} (hg : r.Grounded kept) (hw : memo.Within kept)
    (hw' : memo'.Within kept) {q : Query} {answer answer' : Bool}
    (h : r.ready? memo q = some answer) (h' : r.ready? memo' q = some answer') :
    answer = answer' := by
  have hkept := ready?_of_within hm hg hw h
  rw [ready?_of_within hm hg hw' h'] at hkept
  exact (Option.some.inj hkept).symm

/-- Whatever is ready in `memo` is found again, too. -/
theorem FoundAgain.of_ready {memo kept : Memo} (h : r.FoundAgain kept memo)
    (hkept : r.Grounded kept) (hw : memo.Within kept) (depth : Nat) (pending : List Query)
    (q : Query) (s : Progress) (hs : s.memo.Within kept) (hready : (r.ready? memo q).isSome)
    (ha : memo.Avoids pending)
    (hlimit : ∀ cut ∈ r.cutsFrom depth pending q s, cut.reason ≠ .limit) :
    (r.evaluate depth pending q s).1 = memo.answers q ∧
      (r.evaluate depth pending q s).2.memo.Within kept := by
  obtain ⟨answer, hanswer⟩ := Option.isSome_iff_exists.1 hready
  rw [answers_of_ready hm hanswer]
  rcases ready?_eq_some hm hanswer with hget | ⟨-, hc, -⟩
  · exact h depth pending q answer s hs hget ha hlimit
  · obtain ⟨answer', hanswer'⟩ := Option.isSome_iff_exists.1 (ready?_isSome_of_unknown s.memo hc)
    rw [evaluate_of_ready hanswer']
    exact ⟨ready?_unique hm hkept hs hw hanswer' hanswer, hs⟩

/-- If the answers of a memo are found again, then so is one that rests on
    them. -/
theorem FoundAgain.eq_result {memo kept : Memo} (h : r.FoundAgain kept memo)
    (hkept : r.Grounded kept) (hw : memo.Within kept) {q : Query} {c : Concept}
    (hnew : memo.get? q = none) (hc : r.concept? q.constraint = some c)
    (hasked : ∀ q' ∈ (r.dialogue c q.type).asked memo.answers, (r.ready? memo q').isSome)
    (hq : kept.get? q = some ((r.dialogue c q.type).result memo.answers))
    {depth : Nat} {pending : List Query} {s : Progress} (hs : s.memo.Within kept)
    (ha : memo.Avoids pending) (hpending : q ∉ pending)
    (hlimit : ∀ cut ∈ r.cutsFrom depth pending q s, cut.reason ≠ .limit) :
    (r.evaluate depth pending q s).1 = (r.dialogue c q.type).result memo.answers ∧
      (r.evaluate depth pending q s).2.memo.Within kept := by
  cases hready : r.ready? s.memo q with
  | some answer =>
    rw [evaluate_of_ready hready]
    exact ⟨ready?_unique hm hkept hs .refl hready (ready?_of_get? hm hq), hs⟩
  | none =>
    cases depth with
    | zero =>
      rw [cutsFrom_of_limit hready hpending] at hlimit
      exact absurd rfl (hlimit _ List.mem_cons_self)
    | succ depth =>
      rw [cutsFrom_of_run hready hc hpending] at hlimit
      rw [evaluate_of_run hready hc hpending]
      -- With `q` in progress, too, the memo keeps none of the queries that are.
      obtain ⟨hanswer, hwithin, -⟩ := Dialogue.run_eq_result
        (s := { s with tainted := false }) memo.answers (r.dialogue c q.type)
        (fun q' hq' s' hs' =>
          h.of_ready hm hkept hw depth _ q' s' hs' (hasked q' hq') (ha.cons hnew))
        hs hlimit
      exact keeping_within hq ⟨hanswer, hwithin⟩

/-- **Kept answers are found again** by every evaluation that knows less, unless
    the limit cuts it short. -/
theorem foundAgain_of_grounded {memo kept : Memo} (hg : r.Grounded memo) (hkept : r.Grounded kept)
    (hw : memo.Within kept) : r.FoundAgain kept memo := by
  induction hg with
  | empty => exact fun _ _ _ _ _ _ hq => by cases hq
  | @keep memo q c _ hnew hc hasked ih =>
    have hbefore := ih ((Memo.Within.insert hnew).trans hw)
    intro depth pending q' answer s hs hq' ha hlimit
    have ha' : memo.Avoids pending := ha.of_within (.insert hnew)
    by_cases heq : q' = q
    · subst heq
      have hkeptq := hw q' _ (Table.get?_insert_self _ _ _)
      have hpending : q' ∉ pending := by
        intro hmem
        have hnone := ha q' hmem
        rw [Table.get?_insert_self] at hnone
        cases hnone
      rw [Table.get?_insert_self, Option.some.injEq] at hq'
      rw [← hq']
      exact hbefore.eq_result hm hkept ((Memo.Within.insert hnew).trans hw) hnew hc hasked hkeptq
        hs ha' hpending hlimit
    · rw [Table.get?_insert_of_ne _ _ heq] at hq'
      exact hbefore depth pending q' answer s hs hq' ha' hlimit

end

end Registry

end MethodResolution
