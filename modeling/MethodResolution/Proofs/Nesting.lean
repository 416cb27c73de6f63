/-
  Method resolution — how deep an evaluation is nested.

  A query asks further queries, and these ask others in turn.  The limit stops
  them, but it may be as high as one likes, and it is not why an evaluation
  ends.  All queries in progress are about one type, about known constraints,
  and pairwise different (`Stack`), so each nesting takes a constraint away
  from those that may still come.

  * `Unfolds`: an evaluation followed step by step, without counting down, and
    the queries that come up on its way, each with those in progress then
    (`Entry`);
  * `exists_unfolds`: every evaluation ends, whatever the limit is;
  * `Unfolds.run_eq`: it ends as `evaluate` says;
  * `Unfolds.nested`: no query comes up with more in progress than the limit
    and the number of constraints allow;
  * `Unfolds.of_limit`: limits that leave room for all constraints are alike;
  * `after_withLimit`: a registry is built in the same way under any limit;
  * `satisfies_unfolds`: all this of the queries that are put from outside.
-/
import MethodResolution.Proofs.Admission
import MethodResolution.Proofs.Cuts
import MethodResolution.Proofs.MemberPriority
import MethodResolution.Proofs.Transparency

namespace MethodResolution

/-! ## Queries that may come up -/

namespace Dialogue

variable {α β : Type} {P : Query → Prop}

/-- All queries that may come up in the dialogue, whatever the answers are,
    have the property `P`. -/
def Puts (P : Query → Prop) : Dialogue α → Prop
  | done _ => True
  | ask q next => P q ∧ ∀ yes, (next yes).Puts P

theorem puts_bind {d : Dialogue α} {f : α → Dialogue β} (hd : d.Puts P)
    (hf : ∀ a, (f a).Puts P) : (d >>= f).Puts P := by
  induction d with
  | done a => exact hf a
  | ask q next ih => exact ⟨hd.1, fun yes => ih yes (hd.2 yes)⟩

theorem puts_settle {c : Contingent α} (h : ∀ q ∈ c.given, P q) : (c.settle put).Puts P := by
  obtain ⟨value, given⟩ := c
  cases given with
  | none => trivial
  | some q => exact ⟨h q rfl, fun _ => trivial⟩

theorem puts_settleAll {cs : List (Contingent α)} (h : ∀ c ∈ cs, ∀ q ∈ c.given, P q) :
    (Contingent.settleAll put cs).Puts P := by
  induction cs with
  | nil => trivial
  | cons c cs ih =>
    have hrest := ih fun d hd => h d (List.mem_cons_of_mem _ hd)
    exact puts_bind (puts_settle (h c List.mem_cons_self)) fun _ =>
      puts_bind hrest fun _ => trivial

theorem puts_allM {p : α → Dialogue Bool} (h : ∀ a, (p a).Puts P) (xs : List α) :
    (xs.allM p).Puts P := by
  induction xs with
  | nil => trivial
  | cons a xs ih =>
    refine puts_bind (h a) fun yes => ?_
    cases yes with
    | true => exact ih
    | false => trivial

end Dialogue

namespace Registry

variable {r : Registry}

/-- A test of a constraint puts queries about the type under test alone. -/
theorem puts_dialogue (c : Concept) (k : Key) : (r.dialogue c k).Puts (·.type = k) := by
  refine Dialogue.puts_allM (fun q => ?_) c.requirements
  rw [requirementHolds]
  cases q.mode with
  | member => trivial
  | free =>
    have hcandidates : (Contingent.settleAll Dialogue.put (r.requirementCandidates c q k)).Puts
        (·.type = k) :=
      Dialogue.puts_settleAll fun _ hd _ hq => type_of_mem_freeCandidates hd hq
    exact Dialogue.puts_bind hcandidates fun _ => trivial

/-! ## Evaluations step by step -/

/-- A query that comes up, and the queries that are in progress then, the
    latest first. -/
structure Entry where
  query : Query
  pending : List Query
  deriving DecidableEq, Repr

/-- With the queries `pending` in progress, of which there may be `limit`, the
    dialogue ends with an answer and a state, and on the way the listed queries
    come up. -/
inductive Unfolds (r : Registry) (limit : Nat) :
    List Query → Dialogue Bool → Progress → Bool × Progress → List Entry → Prop
  | done {pending answer s} : Unfolds r limit pending (.done answer) s (answer, s) []
  /-- The query is answered at once. -/
  | ready {pending q next s yes out es} : r.ready? s.memo q = some yes →
      Unfolds r limit pending (next yes) s out es →
      Unfolds r limit pending (.ask q next) s out (⟨q, pending⟩ :: es)
  /-- The query is in progress already, or as many are as may be. -/
  | cut {pending q next s out es} : r.ready? s.memo q = none →
      q ∈ pending ∨ limit ≤ pending.length →
      Unfolds r limit pending (next false) { s with tainted := true } out es →
      Unfolds r limit pending (.ask q next) s out (⟨q, pending⟩ :: es)
  /-- The query is put in progress until its own dialogue has ended. -/
  | run {pending q next s c yes after inner out es} : r.ready? s.memo q = none →
      r.concept? q.constraint = some c → q ∉ pending → pending.length < limit →
      Unfolds r limit (q :: pending) (r.dialogue c q.type) { s with tainted := false }
        (yes, after) inner →
      Unfolds r limit pending (next yes) (r.keeping q (fun _ => (yes, after)) s).2 out es →
      Unfolds r limit pending (.ask q next) s out (⟨q, pending⟩ :: inner ++ es)

section
variable {limit limit' : Nat} {pending : List Query} {d : Dialogue Bool} {s : Progress}
  {out : Bool × Progress} {es : List Entry} {k : Key}

/-- **Every evaluation ends**, whatever the limit is. -/
theorem exists_unfolds (limit : Nat) (hstack : r.Stack k pending) (d : Dialogue Bool)
    (hd : d.Puts (·.type = k)) (s : Progress) :
    ∃ out es, r.Unfolds limit pending d s out es := by
  -- The number of constraints that are not in progress falls from one dialogue to
  -- those inside of it; within one dialogue, the induction is on the dialogue.
  induction hroom : r.concepts.size - pending.length using Nat.strongRecOn
    generalizing pending d s with
  | ind room ih =>
    induction d generalizing s with
    | done answer => exact ⟨(answer, s), [], .done⟩
    | ask q next ihnext =>
      obtain ⟨rfl, hnext⟩ := hd
      cases hready : r.ready? s.memo q with
      | some yes =>
        obtain ⟨out, es, hrest⟩ := ihnext yes (hnext yes) s
        exact ⟨out, _, .ready hready hrest⟩
      | none =>
        obtain ⟨-, c, hc⟩ := ready?_eq_none_iff.1 hready
        by_cases hcut : q ∈ pending ∨ limit ≤ pending.length
        · obtain ⟨out, es, hrest⟩ := ihnext false (hnext false) { s with tainted := true }
          exact ⟨out, _, .cut hready hcut hrest⟩
        · rw [not_or, Nat.not_le] at hcut
          obtain ⟨hq, hlimit⟩ := hcut
          have hstack' := hstack.cons hc hq
          have hlt : r.concepts.size - (q :: pending).length < room := by
            have hle := hstack'.length_le
            rw [List.length_cons] at hle ⊢
            omega
          obtain ⟨⟨yes, after⟩, inner, hinner⟩ :=
            ih _ hlt hstack' (r.dialogue c q.type) (puts_dialogue c q.type)
              { s with tainted := false } rfl
          obtain ⟨out, es, hrest⟩ :=
            ihnext yes (hnext yes) (r.keeping q (fun _ => (yes, after)) s).2
          exact ⟨out, _, .run hready hc hq hlimit hinner hrest⟩

/-- **It ends as `evaluate` says**, which counts down from the limit. -/
theorem Unfolds.run_eq (h : r.Unfolds limit pending d s out es) {depth : Nat}
    (hdepth : depth + pending.length = limit) : d.run (r.evaluate depth pending) s = out := by
  have hask : ∀ (depth : Nat) (pending : List Query) (q : Query) (next : Bool → Dialogue Bool)
      (s : Progress), (Dialogue.ask q next).run (r.evaluate depth pending) s =
        (next (r.evaluate depth pending q s).1).run (r.evaluate depth pending)
          (r.evaluate depth pending q s).2 :=
    fun _ _ _ _ _ => rfl
  induction h generalizing depth with
  | done => rfl
  | ready hready _ ih =>
    rw [hask, evaluate_of_ready hready]
    exact ih hdepth
  | cut hready hcut _ ih =>
    rw [hask, evaluate_of_cut hready (hcut.symm.imp_left fun hle => by omega)]
    exact ih hdepth
  | @run pending q next s c yes after inner out es hready hc hq hlt _ _ ihinner ihrest =>
    obtain ⟨depth, rfl⟩ : ∃ n, depth = n + 1 := Nat.exists_eq_add_one.2 (by omega)
    have hinner : (r.dialogue c q.type).run (r.evaluate depth (q :: pending))
        { s with tainted := false } = (yes, after) := ihinner (by rw [List.length_cons]; omega)
    have hkeeping : r.evaluate (depth + 1) pending q s =
        r.keeping q (fun _ => (yes, after)) s := by
      rw [evaluate_of_run hready hc hq, keeping, keeping, hinner]
    rw [hask, hkeeping]
    exact ihrest hdepth

/-! ## Nesting -/

/-- The entry is nested as it may be in an evaluation about the type `k`. -/
structure Nested (r : Registry) (limit : Nat) (k : Key) (e : Entry) : Prop where
  type_eq : e.query.type = k
  /-- What is in progress is pairwise different, about the same type and about
      known constraints. -/
  stack : r.Stack k e.pending
  length_le : e.pending.length ≤ min limit r.concepts.size

theorem Stack.nested (hstack : r.Stack k pending) {q : Query} (hq : q.type = k)
    (hle : pending.length ≤ limit) : r.Nested limit k ⟨q, pending⟩ :=
  ⟨hq, hstack, Nat.le_min.2 ⟨hle, hstack.length_le⟩⟩

/-- **No query comes up in deeper nesting** than the limit and the number of
    constraints allow. -/
theorem Unfolds.nested (h : r.Unfolds limit pending d s out es) (hstack : r.Stack k pending)
    (hd : d.Puts (·.type = k)) (hle : pending.length ≤ limit) :
    ∀ e ∈ es, r.Nested limit k e := by
  induction h with
  | done => exact fun _ he => absurd he List.not_mem_nil
  | ready _ _ ih =>
    exact List.forall_mem_cons.2 ⟨hstack.nested hd.1 hle, ih hstack (hd.2 _) hle⟩
  | cut _ _ _ ih =>
    exact List.forall_mem_cons.2 ⟨hstack.nested hd.1 hle, ih hstack (hd.2 _) hle⟩
  | run _ hc hq hlt _ _ ihinner ihrest =>
    obtain ⟨rfl, hnext⟩ := hd
    have hinner := ihinner (hstack.cons hc hq) (puts_dialogue _ _) hlt
    have hrest := ihrest hstack (hnext _) hle
    exact List.forall_mem_cons.2
      ⟨hstack.nested rfl hle, List.forall_mem_append.2 ⟨hinner, hrest⟩⟩

/-- **Limits that leave room for all constraints are alike.**  Where one of them
    is reached, the query is in progress already. -/
theorem Unfolds.of_limit (h : r.Unfolds limit pending d s out es)
    (hlimit : r.concepts.size ≤ limit) (hlimit' : r.concepts.size ≤ limit')
    (hstack : r.Stack k pending) (hd : d.Puts (·.type = k)) :
    r.Unfolds limit' pending d s out es := by
  induction h with
  | done => exact .done
  | ready hready _ ih => exact .ready hready (ih hstack (hd.2 _))
  | cut hready hcut _ ih =>
    obtain ⟨rfl, hnext⟩ := hd
    obtain ⟨-, c, hc⟩ := ready?_eq_none_iff.1 hready
    have hmem := hcut.elim id fun hfull => hstack.mem_of_full hc (Nat.le_trans hlimit hfull)
    exact .cut hready (Or.inl hmem) (ih hstack (hnext _))
  | run hready hc hq _ _ _ ihinner ihrest =>
    obtain ⟨rfl, hnext⟩ := hd
    have hstack' := hstack.cons hc hq
    have hlt := Nat.lt_of_lt_of_le (List.length_cons ▸ hstack'.length_le) hlimit'
    exact .run hready hc hq hlt (ihinner hstack' (puts_dialogue _ _)) (ihrest hstack (hnext _))

end

/-! ## Other limits -/

/-- The registry with another limit. -/
def withLimit (r : Registry) (limit : Nat) : Registry :=
  { r with policy := { r.policy with depthLimit := limit } }

theorem withLimit_withLimit (limit limit' : Nat) :
    (r.withLimit limit).withLimit limit' = r.withLimit limit' := rfl

theorem withLimit_self {limit : Nat} (h : r.policy.depthLimit = limit) :
    r.withLimit limit = r := by
  rw [← h]
  rfl

section
variable (limit : Nat)

theorem inherit_withLimit (c : Constraint) (refines : List Key) (known : List Requirement) :
    (r.withLimit limit).inherit c known refines = r.inherit c known refines := by
  have hconcept : (r.withLimit limit).concept? = r.concept? := rfl
  induction refines generalizing known with
  | nil => rfl
  | cons refined rest ih => simp only [inherit, hconcept, ih]

theorem freeError?_withLimit (c : Callable) :
    (r.withLimit limit).freeError? c = r.freeError? c := by
  have htypes : (r.withLimit limit).types = r.types := rfl
  have hbody : (r.withLimit limit).bodyError? = r.bodyError? := bodyError?_congr htypes rfl
  unfold freeError?
  rw [hbody]
  rfl

/-- What is accepted is accepted under any other limit, too. -/
theorem Accepts.withLimit {d : Declaration} {k : Option Key} {r' : Registry}
    (h : r.Accepts d k r') : (r.withLimit limit).Accepts d k (r'.withLimit limit) := by
  have htypes : (r.withLimit limit).types = r.types := rfl
  cases h with
  | primitives => exact .primitives
  | ofClass hknown hbase =>
    refine .ofClass hknown ?_
    rwa [lineage_congr htypes]
  | member hfault => exact .member hfault
  | free herror => exact .free ((freeError?_withLimit limit _).trans herror)
  | constraint hknown hrequirements =>
    exact .constraint hknown ((inherit_withLimit limit _ _ _).trans hrequirements)
  | import_ => exact .import_

/-- No declaration looks at the limit. -/
theorem next_withLimit (d : Declaration) :
    (r.withLimit limit).next d = (r.next d).withLimit limit := by
  rcases next_cases r d with hrefused | ⟨k, haccepts⟩
  · rcases next_cases (r.withLimit limit) d with hrefused' | ⟨k, haccepts⟩
    · rw [hrefused, hrefused']
    -- What is accepted under the new limit is accepted under the old one, too.
    · have hback : r.next d = ((r.withLimit limit).next d).withLimit r.policy.depthLimit :=
        (haccepts.withLimit r.policy.depthLimit).next_eq
      have hlimit : ((r.withLimit limit).next d).policy.depthLimit = limit :=
        congrArg Policy.depthLimit haccepts.policy_eq
      rw [hback, withLimit_withLimit, withLimit_self hlimit]
  · exact (haccepts.withLimit limit).next_eq

/-- The same declarations leave the same behind under any limit. -/
theorem after_withLimit (ds : List Declaration) :
    (r.withLimit limit).after ds = (r.after ds).withLimit limit := by
  induction ds generalizing r with
  | nil => rfl
  | cons d ds ih =>
    rw [after, List.foldl_cons, next_withLimit]
    exact ih

end

/-! ## Queries put from outside -/

/-- Evaluation looks at the room that is left, not at the limit. -/
theorem evaluate_withLimit (limit : Nat) : (r.withLimit limit).evaluate = r.evaluate := by
  have hsame : (r.withLimit limit).SameEvidence r := ⟨rfl, rfl, fun _ _ _ _ _ _ => rfl⟩
  exact hsame.evaluate_eq rfl

/-- A query that is put from outside finds as much room as the limit leaves. -/
theorem satisfies_withLimit (limit : Nat) (q : Query) (memo : Memo) :
    (r.withLimit limit).satisfies q memo =
      ((r.evaluate limit [] q { memo }).1, (r.evaluate limit [] q { memo }).2.memo) := by
  rw [satisfies, evaluate_withLimit]
  rfl

/-- The evaluation that answers a query which is put from outside. -/
theorem unfolds_put (limit : Nat) (q : Query) (memo : Memo) :
    ∃ es, r.Unfolds limit [] (.put q) { memo } (r.evaluate limit [] q { memo }) es := by
  obtain ⟨out, es, h⟩ := exists_unfolds (r := r) limit (.nil q.type) (.put q)
    ⟨rfl, fun _ => trivial⟩ { memo }
  have hrun : (Dialogue.put q).run (r.evaluate limit []) { memo } = out := h.run_eq rfl
  rw [Dialogue.run_put] at hrun
  exact ⟨es, hrun ▸ h⟩

/-- **Evaluation ends within a known nesting**, whatever the policy is and
    whatever answers are kept: step by step it comes to the answer, and whenever
    a query comes up, those in progress are pairwise different, about one type
    and about known constraints.  The answer is the same under all limits that
    leave room for all constraints. -/
theorem satisfies_unfolds (r : Registry) (q : Query) (memo : Memo) :
    (∃ after es, r.Unfolds r.policy.depthLimit [] (.put q) { memo }
        ((r.satisfies q memo).1, after) es ∧ after.memo = (r.satisfies q memo).2) ∧
      (∀ out es, r.Unfolds r.policy.depthLimit [] (.put q) { memo } out es →
        (out.1, out.2.memo) = r.satisfies q memo ∧
          ∀ e ∈ es, r.Nested r.policy.depthLimit q.type e) ∧
      ∀ limit limit', r.concepts.size ≤ limit → r.concepts.size ≤ limit' →
        (r.withLimit limit).satisfies q memo = (r.withLimit limit').satisfies q memo := by
  have hputs : (Dialogue.put q).Puts (·.type = q.type) := ⟨rfl, fun _ => trivial⟩
  refine ⟨?_, fun out es h => ⟨?_, ?_⟩, fun limit limit' hlimit hlimit' => ?_⟩
  · obtain ⟨es, h⟩ := unfolds_put (r := r) r.policy.depthLimit q memo
    exact ⟨_, es, h, rfl⟩
  · have hrun : (Dialogue.put q).run (r.evaluate r.policy.depthLimit []) { memo } = out :=
      h.run_eq rfl
    rw [Dialogue.run_put] at hrun
    rw [← hrun]
    rfl
  · exact h.nested (.nil q.type) hputs (Nat.zero_le _)
  · obtain ⟨es, h⟩ := unfolds_put (r := r) limit q memo
    have h' := h.of_limit hlimit hlimit' (.nil q.type) hputs
    have hrun : (Dialogue.put q).run (r.evaluate limit' []) { memo } =
        r.evaluate limit [] q { memo } := h'.run_eq rfl
    rw [Dialogue.run_put] at hrun
    rw [satisfies_withLimit, satisfies_withLimit, hrun]

/-- Of three constraints, two ask for each other.  There are no more than three
    levels, and a limit far above leaves the answer as it is. -/
theorem satisfies_spins_unfolds :
    rollingThings.concepts.size ≤ 3 ∧ rollingThings.concepts.size ≤ 1000000 ∧
      (∃ out es, rollingThings.Unfolds rollingThings.policy.depthLimit []
          (.put ⟨⟨2⟩, ⟨1⟩⟩) { memo := ∅ } out es ∧
        ∀ e ∈ es, rollingThings.Nested rollingThings.policy.depthLimit ⟨1⟩ e) ∧
      (rollingThings.withLimit 3).satisfies ⟨⟨2⟩, ⟨1⟩⟩ ∅ =
        (rollingThings.withLimit 1000000).satisfies ⟨⟨2⟩, ⟨1⟩⟩ ∅ := by
  have hthree : rollingThings.concepts.size ≤ 3 := by decide +kernel
  have hmany : rollingThings.concepts.size ≤ 1000000 := Nat.le_trans hthree (by decide)
  obtain ⟨⟨after, es, hends, -⟩, hnested, hlimits⟩ :=
    satisfies_unfolds rollingThings ⟨⟨2⟩, ⟨1⟩⟩ ∅
  exact ⟨hthree, hmany, ⟨_, es, hends, (hnested _ es hends).2⟩,
    hlimits 3 1000000 hthree hmany⟩

/-- With less room than that, the answer changes. -/
example : ((rollingThings.withLimit 2).satisfies ⟨⟨2⟩, ⟨1⟩⟩ ∅).1 ≠
    ((rollingThings.withLimit 3).satisfies ⟨⟨2⟩, ⟨1⟩⟩ ∅).1 := by decide +kernel

end Registry

end MethodResolution
