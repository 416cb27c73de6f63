/-
  Method resolution — where an evaluation is cut short.

  A query that is in progress already is a cycle; it is answered with no, and
  so is one that would be in progress beyond the limit.  Such a cut is an event
  on the way of an evaluation, and the taint is to tell whether there was one.

  * `ready?`: the answer that a query gets at once, whatever is in progress.
    What an evaluation does goes by it (`evaluate_of_ready`, `evaluate_of_cut`,
    `evaluate_of_run`), and so does induction along one (`evaluate_induction`);
  * `cutsFrom`: the queries that are cut short on the way of an evaluation,
    each with the reason;
  * `tainted_evaluate_iff`: an evaluation is tainted exactly if it was before,
    or some query is cut short on its way.
-/
import MethodResolution.Proofs.Dialogue
import MethodResolution.Proofs.Evaluation

namespace MethodResolution

/-- Why a query is cut short. -/
inductive CutReason where
  /-- The query is in progress already. -/
  | cycle
  /-- As many queries are in progress as may be. -/
  | limit
  deriving DecidableEq, Repr

/-- A query that is cut short. -/
structure Cut where
  query : Query
  reason : CutReason
  deriving DecidableEq, Repr

namespace Registry

variable {r : Registry} {depth : Nat} {pending : List Query} {q : Query} {s : Progress}

/-! ## Answers at once -/

/-- The answer that a query gets at once: it is kept, or its constraint is not
    known. -/
def ready? (r : Registry) (memo : Memo) (q : Query) : Option Bool :=
  (r.kept? memo q).or (if (r.concept? q.constraint).isSome then none else some false)

theorem ready?_of_kept {memo : Memo} {answer : Bool} (h : r.kept? memo q = some answer) :
    r.ready? memo q = some answer := by
  rw [ready?, h, Option.some_or]

theorem ready?_of_unknown {memo : Memo} (h : r.kept? memo q = none)
    (hc : r.concept? q.constraint = none) : r.ready? memo q = some false := by
  rw [ready?, h, hc]
  rfl

theorem ready?_eq_none_iff {memo : Memo} :
    r.ready? memo q = none ↔ r.kept? memo q = none ∧ ∃ c, r.concept? q.constraint = some c := by
  rw [ready?, Option.or_eq_none_iff, ← Option.isSome_iff_exists]
  refine and_congr_right fun _ => ?_
  cases r.concept? q.constraint <;> simp

theorem ready?_isSome_of_unknown (memo : Memo) (hc : r.concept? q.constraint = none) :
    (r.ready? memo q).isSome := by
  rw [Option.isSome_iff_ne_none, Ne, ready?_eq_none_iff, hc]
  rintro ⟨-, c, ⟨⟩⟩

/-- What is ready is answered at once, and nothing changes. -/
theorem evaluate_of_ready {answer : Bool} (h : r.ready? s.memo q = some answer) :
    r.evaluate depth pending q s = (answer, s) := by
  have hwith : ∀ deeper, r.evaluateWith pending deeper q s = (answer, s) := by
    intro deeper
    rw [evaluateWith]
    cases hkept : r.kept? s.memo q with
    | some kept =>
      rw [ready?_of_kept hkept] at h
      cases h
      rfl
    | none =>
      cases hc : r.concept? q.constraint with
      | none =>
        rw [ready?_of_unknown hkept hc] at h
        cases h
        rfl
      | some c =>
        rw [ready?_eq_none_iff.2 ⟨hkept, c, hc⟩] at h
        cases h
  cases depth with
  | zero => exact hwith none
  | succ depth => exact hwith (some (r.evaluate depth (q :: pending)))

/-- A query that may not be in progress is answered with no. -/
theorem evaluate_of_cut (h : r.ready? s.memo q = none) (hcut : depth = 0 ∨ q ∈ pending) :
    r.evaluate depth pending q s = (false, { s with tainted := true }) := by
  obtain ⟨hkept, c, hc⟩ := ready?_eq_none_iff.1 h
  cases depth with
  | zero =>
    rw [evaluate, evaluateWith, hkept, hc]
    rfl
  | succ depth =>
    have hq : q ∈ pending := hcut.resolve_left (Nat.succ_ne_zero depth)
    simp [evaluate, evaluateWith, hkept, hc, hq, cutShort]

/-- Any other query has its dialogue carried out, with itself in progress. -/
theorem evaluate_of_run {c : Concept} (h : r.ready? s.memo q = none)
    (hc : r.concept? q.constraint = some c) (hq : q ∉ pending) :
    r.evaluate (depth + 1) pending q s =
      r.keeping q ((r.dialogue c q.type).run (r.evaluate depth (q :: pending))) s := by
  rw [← conceptHolds_eq_run]
  simp [evaluate, evaluateWith, (ready?_eq_none_iff.1 h).1, hc, hq]

/-- **Induction along an evaluation.**  A query is ready, or cut short as a cycle
    or by the limit, or else its dialogue is carried out, where the queries that
    come up are evaluated with it in progress. -/
theorem evaluate_induction {motive : Nat → List Query → Query → Progress → Prop}
    (ready : ∀ depth pending q s answer, r.ready? s.memo q = some answer →
      motive depth pending q s)
    (cycle : ∀ depth pending q s, r.ready? s.memo q = none → q ∈ pending →
      motive depth pending q s)
    (limit : ∀ pending q s, r.ready? s.memo q = none → q ∉ pending → motive 0 pending q s)
    (run : ∀ depth pending q s c, r.ready? s.memo q = none → r.concept? q.constraint = some c →
      q ∉ pending → (∀ q' s', motive depth (q :: pending) q' s') →
      motive (depth + 1) pending q s)
    (depth : Nat) (pending : List Query) (q : Query) (s : Progress) : motive depth pending q s := by
  induction depth using Nat.strongRecOn generalizing pending q s with
  | ind depth ih =>
    cases hready : r.ready? s.memo q with
    | some answer => exact ready depth pending q s answer hready
    | none =>
      obtain ⟨-, c, hc⟩ := ready?_eq_none_iff.1 hready
      by_cases hq : q ∈ pending
      · exact cycle depth pending q s hready hq
      · cases depth with
        | zero => exact limit pending q s hready hq
        | succ depth =>
          exact run depth pending q s c hready hc hq (ih depth (Nat.lt_succ_self depth) _)

/-! ## Answers that are kept afterwards -/

section
variable (body : Evaluation Bool)

theorem keeping_tainted : (r.keeping q body s).2.tainted =
    (s.tainted || (body { s with tainted := false }).2.tainted) := rfl

theorem keeping_memo : (r.keeping q body s).2.memo =
    if r.policy.memoize && !(body { s with tainted := false }).2.tainted then
      (body { s with tainted := false }).2.memo.insert q (body { s with tainted := false }).1
    else (body { s with tainted := false }).2.memo := rfl

end

/-! ## Cuts -/

/-- The queries that are cut short while `q` is evaluated from the state `s`,
    with the queries `pending` in progress and room for `depth` more. -/
def cutsFrom (r : Registry) : Nat → List Query → Query → Progress → List Cut
  | 0, pending, q, s =>
    if (r.ready? s.memo q).isSome then [] else [⟨q, if q ∈ pending then .cycle else .limit⟩]
  | depth + 1, pending, q, s =>
    match r.ready? s.memo q, r.concept? q.constraint with
    | none, some c =>
      if q ∈ pending then [⟨q, .cycle⟩]
      else
        (r.dialogue c q.type).collect (r.evaluate depth (q :: pending))
          (r.cutsFrom depth (q :: pending)) { s with tainted := false }
    | _, _ => []

theorem cutsFrom_of_ready (h : (r.ready? s.memo q).isSome) : r.cutsFrom depth pending q s = [] := by
  obtain ⟨answer, hanswer⟩ := Option.isSome_iff_exists.1 h
  cases depth with
  | zero => rw [cutsFrom, if_pos h]
  | succ depth => rw [cutsFrom, hanswer]

theorem cutsFrom_of_cycle (h : r.ready? s.memo q = none) (hq : q ∈ pending) :
    r.cutsFrom depth pending q s = [⟨q, .cycle⟩] := by
  obtain ⟨-, c, hc⟩ := ready?_eq_none_iff.1 h
  cases depth with
  | zero => simp [cutsFrom, h, hq]
  | succ depth => simp [cutsFrom, h, hc, hq]

theorem cutsFrom_of_limit (h : r.ready? s.memo q = none) (hq : q ∉ pending) :
    r.cutsFrom 0 pending q s = [⟨q, .limit⟩] := by
  simp [cutsFrom, h, hq]

theorem cutsFrom_of_run {c : Concept} (h : r.ready? s.memo q = none)
    (hc : r.concept? q.constraint = some c) (hq : q ∉ pending) :
    r.cutsFrom (depth + 1) pending q s =
      (r.dialogue c q.type).collect (r.evaluate depth (q :: pending))
        (r.cutsFrom depth (q :: pending)) { s with tainted := false } := by
  simp [cutsFrom, h, hc, hq]

/-- While a dialogue is carried out, the taint tells the cuts, if it does so
    query by query. -/
theorem tainted_run_iff {α : Type} {respond : Query → Evaluation Bool}
    {note : Query → Progress → List Cut}
    (h : ∀ q s, (respond q s).2.tainted = true ↔ s.tainted = true ∨ note q s ≠ [])
    (d : Dialogue α) (s : Progress) :
    (d.run respond s).2.tainted = true ↔ s.tainted = true ∨ d.collect respond note s ≠ [] := by
  induction d generalizing s with
  | done a => simp [Dialogue.collect, show (Dialogue.done a).run respond s = (a, s) from rfl]
  | ask q next ih =>
    refine (ih (respond q s).1 (respond q s).2).trans ?_
    rw [h q s, Dialogue.collect, Ne, Ne, Ne, List.append_eq_nil_iff, not_and_or, or_assoc]

/-- **The taint tells the cuts**: an evaluation ends tainted exactly if it began
    so, or some query is cut short on its way. -/
theorem tainted_evaluate_iff (r : Registry) (depth : Nat) (pending : List Query) (q : Query)
    (s : Progress) :
    (r.evaluate depth pending q s).2.tainted = true ↔
      s.tainted = true ∨ r.cutsFrom depth pending q s ≠ [] := by
  induction depth, pending, q, s using evaluate_induction (r := r) with
  | ready depth pending q s answer hready =>
    simp [evaluate_of_ready hready, cutsFrom_of_ready (by rw [hready]; rfl)]
  | cycle depth pending q s hready hq =>
    simp [evaluate_of_cut hready (Or.inr hq), cutsFrom_of_cycle hready hq]
  | limit pending q s hready hq =>
    simp [evaluate_of_cut hready (Or.inl rfl), cutsFrom_of_limit hready hq]
  | run depth pending q s c hready hc hq ih =>
    have hrun := tainted_run_iff ih (r.dialogue c q.type) { s with tainted := false }
    rw [evaluate_of_run hready hc hq, cutsFrom_of_run hready hc hq, keeping_tainted,
      Bool.or_eq_true, hrun]
    simp

/-- The queries that are cut short when `q` is asked first, with an empty memo
    and room for `limit` queries. -/
def cuts (r : Registry) (limit : Nat) (q : Query) : List Cut := r.cutsFrom limit [] q {}

end Registry

end MethodResolution
