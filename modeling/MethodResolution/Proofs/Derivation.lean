/-
  Method resolution — answers that follow without a cycle.

  Where no cycle and no limit is met, whether a type satisfies a constraint has
  a meaning of its own, which does not mention what is in progress or kept.

  * `Derives r q answer`: the answer follows from the requirements, where the
    answers to all queries that come up on the way have been derived;
  * `Derives.unique`: a query has at most one such answer;
  * `Derives.eq_all`: it tells whether all requirements of the constraint are
    met, given the derived answers;
  * `evaluate_derives`: an evaluation that is not cut short gives the derived
    answer.
-/
import MethodResolution.Proofs.Cuts

namespace MethodResolution

namespace Registry

variable {r : Registry} {q : Query} {answer : Bool}

/-- The answer to a query follows from the requirements, without a cycle. -/
inductive Derives (r : Registry) : Query → Bool → Prop
  | unknown {q : Query} : r.concept? q.constraint = none → Derives r q false
  | known {q : Query} {c : Concept} {holds : Query → Bool} :
      r.concept? q.constraint = some c →
      (∀ q' ∈ (r.dialogue c q.type).asked holds, Derives r q' (holds q')) →
      Derives r q ((r.dialogue c q.type).result holds)

/-- **No query has two derived answers.** -/
theorem Derives.unique {answer' : Bool} (h : r.Derives q answer) (h' : r.Derives q answer') :
    answer = answer' := by
  induction h generalizing answer' with
  | unknown hc =>
    cases h' with
    | unknown _ => rfl
    | known hc' => simp [hc] at hc'
  | known hc _ ih =>
    cases h' with
    | unknown hc' => simp [hc] at hc'
    | known hc' hasked =>
      cases hc.symm.trans hc'
      -- Both dialogues are the same one, so they ask the same until they differ
      -- in an answer, and by induction they do not.
      exact Dialogue.result_congr _ fun q' hq' hq'' => ih q' hq' (hasked q' hq'')

open scoped Classical in
/-- The derived answers, where a query without one counts as no. -/
noncomputable def derived (r : Registry) (q : Query) : Bool := decide (r.Derives q true)

theorem Derives.derived_eq (h : r.Derives q answer) : r.derived q = answer := by
  cases answer with
  | true => simpa [derived] using h
  | false =>
    rw [derived, decide_eq_false_iff_not]
    intro htrue
    cases h.unique htrue

/-- **The derived answer tells whether all requirements are met**, given the
    derived answers to the queries that come up. -/
theorem Derives.eq_all {c : Concept} (h : r.Derives q answer)
    (hc : r.concept? q.constraint = some c) :
    answer = c.requirements.all (r.meets r.derived c q.type) := by
  cases h with
  | unknown hc' => simp [hc] at hc'
  | known hc' hasked =>
    cases hc.symm.trans hc'
    rw [← result_dialogue]
    exact Dialogue.result_congr _ fun q' hq' _ => (hasked q' hq').derived_eq.symm

/-! ## Evaluations that are not cut short -/

/-- Every kept answer is a derived one. -/
def KeepsDerived (r : Registry) (memo : Memo) : Prop :=
  ∀ q answer, r.kept? memo q = some answer → r.Derives q answer

theorem keepsDerived_empty : r.KeepsDerived ∅ := by
  intro q answer h
  rw [kept?] at h
  split_ifs at h
  cases h

theorem derives_of_ready {memo : Memo} (h : r.KeepsDerived memo)
    (hready : r.ready? memo q = some answer) : r.Derives q answer := by
  rw [ready?, Option.or_eq_some_iff] at hready
  rcases hready with hkept | ⟨-, hunknown⟩
  · exact h q answer hkept
  · split_ifs at hunknown with hc
    cases hunknown
    exact .unknown (by simpa using hc)

/-- A derived answer may be kept. -/
theorem KeepsDerived.keeping {body : Evaluation Bool} {s : Progress}
    (hanswer : r.Derives q (body { s with tainted := false }).1)
    (h : r.KeepsDerived (body { s with tainted := false }).2.memo) :
    r.KeepsDerived (r.keeping q body s).2.memo := by
  rw [keeping_memo]
  split_ifs with hkeep
  · intro q' answer' hkept
    rw [kept?] at hkept
    split_ifs at hkept with hm
    rw [Table.get?_insert] at hkept
    split_ifs at hkept with heq
    · cases hkept
      exact heq ▸ hanswer
    · exact h q' answer' (by rwa [kept?, if_pos hm])
  · exact h

/-- The answer that a dialogue comes to follows from derived answers, if it is
    given these. -/
theorem derives_of_run {c : Concept} {respond : Query → Evaluation Bool}
    {note : Query → Progress → List Cut} {s : Progress} (hc : r.concept? q.constraint = some c)
    (hask : ∀ q' s', r.KeepsDerived s'.memo → note q' s' = [] →
      r.Derives q' (respond q' s').1 ∧ r.KeepsDerived (respond q' s').2.memo)
    (hs : r.KeepsDerived s.memo) (hnote : (r.dialogue c q.type).collect respond note s = []) :
    r.Derives q ((r.dialogue c q.type).run respond s).1 ∧
      r.KeepsDerived ((r.dialogue c q.type).run respond s).2.memo := by
  have hask' : ∀ q' s', r.KeepsDerived s'.memo → (∀ cut ∈ note q' s', False) →
      r.Derives q' (respond q' s').1 ∧ r.KeepsDerived (respond q' s').2.memo :=
    fun q' s' hs' hnote' => hask q' s' hs' (List.eq_nil_iff_forall_not_mem.2 hnote')
  obtain ⟨hresult, hkeeps, hasked⟩ := Dialogue.run_eq_result r.derived (r.dialogue c q.type)
    (fun q' _ s' hs' hnote' => (hask' q' s' hs' hnote').imp_left (·.derived_eq.symm))
    hs (List.eq_nil_iff_forall_not_mem.1 hnote)
  rw [hresult]
  refine ⟨.known hc fun q' hq' => ?_, hkeeps⟩
  obtain ⟨s', hs', hnote'⟩ := hasked q' hq'
  have hderives := (hask' q' s' hs' hnote').1
  rwa [hderives.derived_eq]

/-- **An evaluation that is not cut short derives its answer**, and keeps
    derived answers. -/
theorem evaluate_derives (depth : Nat) (pending : List Query) (q : Query) (s : Progress)
    (hs : r.KeepsDerived s.memo) (hcuts : r.cutsFrom depth pending q s = []) :
    r.Derives q (r.evaluate depth pending q s).1 ∧
      r.KeepsDerived (r.evaluate depth pending q s).2.memo := by
  induction depth, pending, q, s using evaluate_induction (r := r) with
  | ready depth pending q s answer hready =>
    rw [evaluate_of_ready hready]
    exact ⟨derives_of_ready hs hready, hs⟩
  | cycle depth pending q s hready hq =>
    rw [cutsFrom_of_cycle hready hq] at hcuts
    cases hcuts
  | limit pending q s hready hq =>
    rw [cutsFrom_of_limit hready hq] at hcuts
    cases hcuts
  | run depth pending q s c hready hc hq ih =>
    rw [cutsFrom_of_run hready hc hq] at hcuts
    rw [evaluate_of_run hready hc hq]
    have hrun := derives_of_run (s := { s with tainted := false }) hc ih hs hcuts
    exact ⟨hrun.1, .keeping hrun.1 hrun.2⟩

/-- A query that comes first and is not cut short gets its derived answer. -/
theorem satisfies_derives (h : r.cuts r.policy.depthLimit q = []) :
    r.Derives q (r.satisfies q ∅).1 :=
  (evaluate_derives r.policy.depthLimit [] q {} keepsDerived_empty h).1

end Registry

end MethodResolution
