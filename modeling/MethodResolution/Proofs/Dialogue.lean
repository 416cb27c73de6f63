/-
  Method resolution — the dialogue of an evaluation.

  Which query the test of a constraint puts next depends on the answers so far
  and on nothing else.  So the test is a tree of queries (`Dialogue`), which is
  there before any of them is answered, and facts about an evaluation are shown
  by induction on it.

  * `conceptHolds_eq_run`: to test the requirements of a constraint is to carry
    out their dialogue, in any monad;
  * `asked`, `result`: the queries of a dialogue whose answers are given, and
    what it comes to;
  * `collect`: what is noted down query by query while a dialogue is carried
    out;
  * `run_eq_result`, `run_alike`: a run in which nothing bad is noted comes to
    the given result, or to that of another run.
-/
import MethodResolution.Proofs.Tracking

namespace MethodResolution

/-- A computation that puts queries. -/
inductive Dialogue (α : Type) where
  | done (a : α)
  /-- Put the query `q` and go on as its answer says. -/
  | ask (q : Query) (next : Bool → Dialogue α)

namespace Dialogue

variable {α β γ : Type}

protected def bind : Dialogue α → (α → Dialogue β) → Dialogue β
  | done a, f => f a
  | ask q next, f => ask q fun yes => (next yes).bind f

instance : Monad Dialogue where
  pure := done
  bind := Dialogue.bind

/-- Put one query and return its answer. -/
def put (q : Query) : Dialogue Bool := ask q done

/-! ## Carrying out a dialogue -/

section
variable {m : Type → Type} [Monad m]

/-- Carry out a dialogue, where `respond` answers the queries. -/
def run (respond : Query → m Bool) : Dialogue α → m α
  | done a => pure a
  | ask q next => do
    let yes ← respond q
    (next yes).run respond

theorem run_pure (respond : Query → m Bool) (a : α) :
    (pure a : Dialogue α).run respond = pure a := rfl

variable [LawfulMonad m] (respond : Query → m Bool)

theorem run_bind (d : Dialogue α) (f : α → Dialogue β) :
    (d >>= f).run respond = d.run respond >>= fun a => (f a).run respond := by
  induction d with
  | done a =>
    show (f a).run respond = (pure a : m α) >>= fun a => (f a).run respond
    rw [pure_bind]
  | ask q next ih =>
    show (respond q >>= fun yes => (next yes >>= f).run respond) =
      (respond q >>= fun yes => (next yes).run respond) >>= fun a => (f a).run respond
    rw [bind_assoc]
    exact bind_congr fun yes => ih yes

theorem run_put (q : Query) : (put q).run respond = respond q := bind_pure _

theorem run_settle (c : Contingent α) : (c.settle put).run respond = c.settle respond := by
  obtain ⟨value, given⟩ := c
  cases given with
  | none => rfl
  | some q => rw [Contingent.settle, Contingent.settle, run_bind, run_put]; rfl

theorem run_settleAll (cs : List (Contingent α)) :
    (Contingent.settleAll put cs).run respond = Contingent.settleAll respond cs := by
  induction cs with
  | nil => rfl
  | cons c cs ih => simp only [Contingent.settleAll, run_bind, run_settle, ih, run_pure]

theorem run_allM (p : α → Dialogue Bool) (xs : List α) :
    (xs.allM p).run respond = xs.allM fun a => (p a).run respond := by
  induction xs with
  | nil => rfl
  | cons a xs ih =>
    rw [List.allM, List.allM, run_bind]
    refine bind_congr fun yes => ?_
    cases yes with
    | true => exact ih
    | false => rfl

end

/-! ## Given answers -/

/-- What a dialogue comes to, if `holds` are the answers to all queries. -/
def result (holds : Query → Bool) : Dialogue α → α
  | done a => a
  | ask q next => (next (holds q)).result holds

/-- The queries that come up, if `holds` are the answers to all queries. -/
def asked (holds : Query → Bool) : Dialogue α → List Query
  | done _ => []
  | ask q next => q :: (next (holds q)).asked holds

/-- Answers that agree on what is asked come to the same. -/
theorem result_congr {holds holds' : Query → Bool} (d : Dialogue α)
    (h : ∀ q ∈ d.asked holds, q ∈ d.asked holds' → holds q = holds' q) :
    d.result holds = d.result holds' := by
  induction d with
  | done a => rfl
  | ask q next ih =>
    have hq : holds q = holds' q := h q List.mem_cons_self List.mem_cons_self
    rw [result, result, ← hq]
    refine ih (holds q) fun q' hq' hq'' => h q' (List.mem_cons_of_mem _ hq') ?_
    rw [asked, ← hq]
    exact List.mem_cons_of_mem _ hq''

theorem run_holds {m : Type → Type} [Monad m] [LawfulMonad m] (holds : Query → Bool)
    (d : Dialogue α) : d.run (fun q => (pure (holds q) : m Bool)) = pure (d.result holds) := by
  induction d with
  | done a => rfl
  | ask q next ih => rw [run, pure_bind, ih, result]

/-! ## Notes on a run -/

section
variable {σ τ : Type}

/-- What is noted down while a dialogue is carried out from a state; `note` tells
    what, for each query and the state in which it is put. -/
def collect (respond : Query → StateM σ Bool) (note : Query → σ → List γ) :
    Dialogue α → σ → List γ
  | done _, _ => []
  | ask q next, s =>
    note q s ++ (next (respond q s).1).collect respond note (respond q s).2

variable {respond : Query → StateM σ Bool} {note : Query → σ → List γ} {good : γ → Prop}

/-- If the queries of a dialogue with the answers `holds` are given these
    answers, unless something bad is noted, then the dialogue comes to their
    result, unless something bad is noted; and each of them is put on the way. -/
theorem run_eq_result {inv : σ → Prop} (holds : Query → Bool) (d : Dialogue α)
    (h : ∀ q ∈ d.asked holds, ∀ s, inv s → (∀ x ∈ note q s, good x) →
      (respond q s).1 = holds q ∧ inv (respond q s).2)
    {s : σ} (hs : inv s) (hgood : ∀ x ∈ d.collect respond note s, good x) :
    (d.run respond s).1 = d.result holds ∧ inv (d.run respond s).2 ∧
      ∀ q ∈ d.asked holds, ∃ s, inv s ∧ ∀ x ∈ note q s, good x := by
  induction d generalizing s with
  | done a => exact ⟨rfl, hs, fun _ hq => absurd hq List.not_mem_nil⟩
  | ask q next ih =>
    obtain ⟨hnow, hlater⟩ := List.forall_mem_append.1 hgood
    obtain ⟨hanswer, hs'⟩ := h q List.mem_cons_self s hs hnow
    rw [hanswer] at hlater
    obtain ⟨hresult, hinv, hasked⟩ :=
      ih (holds q) (fun q' hq' => h q' (List.mem_cons_of_mem _ hq')) hs' hlater
    have hrun : (ask q next).run respond s = (next (holds q)).run respond (respond q s).2 := by
      rw [← hanswer]
      rfl
    rw [hrun]
    exact ⟨hresult, hinv, List.forall_mem_cons.2 ⟨⟨s, hs, hnow⟩, hasked⟩⟩

/-- If related states give the same answers and stay related, unless something
    bad is noted, then a dialogue comes to the same from related states, unless
    something bad is noted. -/
theorem run_alike {respond' : Query → StateM τ Bool} {rel : σ → τ → Prop}
    (h : ∀ q s t, rel s t → (∀ x ∈ note q s, good x) →
      (respond q s).1 = (respond' q t).1 ∧ rel (respond q s).2 (respond' q t).2)
    (d : Dialogue α) {s : σ} {t : τ} (hst : rel s t)
    (hgood : ∀ x ∈ d.collect respond note s, good x) :
    (d.run respond s).1 = (d.run respond' t).1 ∧
      rel (d.run respond s).2 (d.run respond' t).2 := by
  induction d generalizing s t with
  | done a => exact ⟨rfl, hst⟩
  | ask q next ih =>
    obtain ⟨hnow, hlater⟩ := List.forall_mem_append.1 hgood
    obtain ⟨hanswer, hst'⟩ := h q s t hst hnow
    have hrest := ih (respond q s).1 hst' hlater
    show ((next (respond q s).1).run respond (respond q s).2).1 =
        ((next (respond' q t).1).run respond' (respond' q t).2).1 ∧
      rel ((next (respond q s).1).run respond (respond q s).2).2
        ((next (respond' q t).1).run respond' (respond' q t).2).2
    rwa [← hanswer]

end

end Dialogue

namespace Registry

variable {r : Registry} {m : Type → Type} [Monad m] [LawfulMonad m]

/-- The dialogue in which the requirements of `c` are tested on the type `k`. -/
def dialogue (r : Registry) (c : Concept) (k : Key) : Dialogue Bool := r.conceptHolds Dialogue.put c k

theorem run_requirementHolds (respond : Query → m Bool) (c : Concept) (k : Key) (q : Requirement) :
    (r.requirementHolds Dialogue.put c k q).run respond = r.requirementHolds respond c k q := by
  rw [requirementHolds, requirementHolds]
  cases q.mode with
  | member => rfl
  | free =>
    rw [Dialogue.run_bind, Dialogue.run_settleAll]
    rfl

/-- **Testing the requirements carries out their dialogue.** -/
theorem conceptHolds_eq_run (respond : Query → m Bool) (c : Concept) (k : Key) :
    r.conceptHolds respond c k = (r.dialogue c k).run respond := by
  rw [dialogue, conceptHolds, conceptHolds, Dialogue.run_allM]
  simp only [run_requirementHolds]

/-- With given answers, the dialogue comes to a plain test of all requirements. -/
theorem result_dialogue (holds : Query → Bool) (c : Concept) (k : Key) :
    (r.dialogue c k).result holds = c.requirements.all (r.meets holds c k) := by
  have hrun : (pure ((r.dialogue c k).result holds) : Id Bool) =
      pure (c.requirements.all (r.meets holds c k)) := by
    rw [← Dialogue.run_holds, ← conceptHolds_eq_run, conceptHolds_pure]
  exact hrun

end Registry

end MethodResolution
