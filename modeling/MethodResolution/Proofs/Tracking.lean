/-
  Method resolution — evaluations that track each other.

  Whether a type meets a constraint is computed in any monad, by putting the
  queries that come up to whoever answers them (`conceptHolds`).  So the same
  text stands for evaluations that keep answers and for others that do not.

  * `Tracks good lost x y`: the computation `x` on a state keeps `good`, and
    its answer is that of `y`, unless `x` ends in a state that is `lost`.  What
    is lost stays lost, so a run that ends well was never lost on its way;
  * `conceptHolds_tracks`, `settleAll_tracks`: if the answers to queries track
    each other, then so do the evaluations that ask them;
  * `meets`, `conceptHolds_pure`: with a fixed answer to each query, an
    evaluation is a plain test of all requirements.
-/
import MethodResolution.Proofs.Locality
import Mathlib.Tactic.Common

namespace MethodResolution

variable {σ α β : Type} {m : Type → Type} [Monad m]

/-- From the states where `good` holds, `x` keeps `good`, and it answers what
    `y` answers, unless it ends in a state where `lost` holds. -/
structure Tracks (good lost : σ → Prop) (x : StateM σ α) (y : m α) : Prop where
  good_after : ∀ s, good s → good (x s).2
  lost_after : ∀ s, good s → lost s → lost (x s).2
  answers : ∀ s, good s → lost (x s).2 ∨ y = pure (x s).1

namespace Tracks

variable {good lost : σ → Prop}

theorem ofPure (a : α) : Tracks good lost (pure a : StateM σ α) (pure a : m α) :=
  ⟨fun _ h => h, fun _ _ h => h, fun _ _ => Or.inr rfl⟩

variable [LawfulMonad m]

theorem bind {x : StateM σ α} {y : m α} {f : α → StateM σ β} {g : α → m β}
    (hx : Tracks good lost x y) (hf : ∀ a, Tracks good lost (f a) (g a)) :
    Tracks good lost (x >>= f) (y >>= g) where
  good_after s hs := (hf (x s).1).good_after _ (hx.good_after s hs)
  lost_after s hs hl := (hf (x s).1).lost_after _ (hx.good_after s hs) (hx.lost_after s hs hl)
  answers s hs := by
    have hs' := hx.good_after s hs
    rcases hx.answers s hs with hl | hy
    · exact Or.inl ((hf (x s).1).lost_after _ hs' hl)
    · rw [hy, pure_bind]
      exact (hf (x s).1).answers _ hs'

theorem map {x : StateM σ α} {y : m α} (f : α → β) (hx : Tracks good lost x y) :
    Tracks good lost (x >>= fun a => pure (f a)) (y >>= fun a => pure (f a)) :=
  hx.bind fun _ => ofPure _

theorem allM {p : α → StateM σ Bool} {p' : α → m Bool} (xs : List α)
    (h : ∀ a, Tracks good lost (p a) (p' a)) :
    Tracks good lost (xs.allM p) (xs.allM p') := by
  induction xs with
  | nil => exact ofPure true
  | cons a xs ih =>
    refine (h a).bind fun yes => ?_
    cases yes with
    | true => exact ih
    | false => exact ofPure false

end Tracks

theorem allM_congr {p p' : α → m Bool} {xs : List α} (h : ∀ a ∈ xs, p a = p' a) :
    xs.allM p = xs.allM p' := by
  induction xs with
  | nil => rfl
  | cons a xs ih =>
    rw [List.allM, List.allM, h a List.mem_cons_self,
      ih fun b hb => h b (List.mem_cons_of_mem _ hb)]

/-! ## Settling conditions -/

namespace Contingent

/-- The values whose condition is answered with yes. -/
def standing (holds : Query → Bool) (cs : List (Contingent α)) : List α :=
  (cs.filter (·.given.all holds)).map (·.value)

theorem standing_perm {holds : Query → Bool} {cs cs' : List (Contingent α)} (h : cs.Perm cs') :
    (standing holds cs).Perm (standing holds cs') :=
  (h.filter _).map _

variable [LawfulMonad m]

theorem settle_tracks {good lost : σ → Prop} {ask : Query → StateM σ Bool} {ask' : Query → m Bool}
    {c : Contingent α} (h : ∀ q ∈ c.given, Tracks good lost (ask q) (ask' q)) :
    Tracks good lost (c.settle ask) (c.settle ask') := by
  obtain ⟨value, given⟩ := c
  cases given with
  | none => exact Tracks.ofPure (some value)
  | some q => exact (h q rfl).map _

theorem settleAll_tracks {good lost : σ → Prop} {ask : Query → StateM σ Bool}
    {ask' : Query → m Bool} {cs : List (Contingent α)}
    (h : ∀ c ∈ cs, ∀ q ∈ c.given, Tracks good lost (ask q) (ask' q)) :
    Tracks good lost (settleAll ask cs) (settleAll ask' cs) := by
  induction cs with
  | nil => exact Tracks.ofPure []
  | cons c cs ih =>
    refine (settle_tracks (h c List.mem_cons_self)).bind fun first => ?_
    exact (ih fun d hd => h d (List.mem_cons_of_mem _ hd)).map _

theorem settle_pure (holds : Query → Bool) (c : Contingent α) :
    c.settle (fun q => (pure (holds q) : m Bool)) =
      pure (if c.given.all holds then some c.value else none) := by
  obtain ⟨value, given⟩ := c
  cases given with
  | none => rfl
  | some q => simp [settle]

theorem settleAll_pure (holds : Query → Bool) (cs : List (Contingent α)) :
    settleAll (fun q => (pure (holds q) : m Bool)) cs = pure (standing holds cs) := by
  induction cs with
  | nil => rfl
  | cons c cs ih =>
    rw [settleAll, settle_pure, ih, pure_bind, pure_bind, standing, standing, List.filter_cons]
    split_ifs with hc
    · rfl
    · rfl

end Contingent

/-! ## Requirements -/

namespace Registry

variable {r r' : Registry}

/-- A callable fits a receiver at most on a query about its type. -/
theorem type_of_mem_freeCandidates {cs : List Callable} {receiver : DataType}
    {args : List DataType} {caller : Option Key} {c : Contingent Candidate}
    (hc : c ∈ r.freeCandidates cs receiver args caller) {q : Query} (hq : q ∈ c.given) :
    q.type = receiver.type := by
  rw [freeCandidates, List.mem_filterMap] at hc
  obtain ⟨callable, -, hfit⟩ := hc
  obtain ⟨fit, hmatch, rfl⟩ := Option.map_eq_some_iff.1 hfit
  rw [matchFree?] at hmatch
  split_ifs at hmatch
  obtain ⟨slots, -, hreceiver⟩ := Option.bind_eq_some_iff.1 hmatch
  obtain ⟨conversion, hconversion, rfl⟩ := Option.map_eq_some_iff.1 hreceiver
  rw [matchReceiver?] at hconversion
  obtain ⟨p, -, hp⟩ := Option.bind_eq_some_iff.1 hconversion
  split_ifs at hp
  · obtain ⟨_, -, rfl⟩ := Option.map_eq_some_iff.1 hp
    cases hq
  · obtain ⟨_, -, rfl⟩ := Option.map_eq_some_iff.1 hp
    cases hq
    rfl

theorem requirementHolds_tracks [LawfulMonad m] {good lost : σ → Prop}
    {ask : Query → StateM σ Bool} {ask' : Query → m Bool} {k : Key}
    (h : ∀ q : Query, q.type = k → Tracks good lost (ask q) (ask' q)) (c : Concept)
    (q : Requirement) :
    Tracks good lost (r.requirementHolds ask c k q) (r.requirementHolds ask' c k q) := by
  rw [requirementHolds, requirementHolds]
  cases q.mode with
  | member => exact Tracks.ofPure _
  | free =>
    refine (Contingent.settleAll_tracks fun d hd q' hq' => ?_).map _
    exact h q' (type_of_mem_freeCandidates hd hq')

/-- **Evaluations track each other as the answers to their queries do.**  All
    queries that come up are about the type under test. -/
theorem conceptHolds_tracks [LawfulMonad m] {good lost : σ → Prop}
    {ask : Query → StateM σ Bool} {ask' : Query → m Bool} {k : Key}
    (h : ∀ q : Query, q.type = k → Tracks good lost (ask q) (ask' q)) (c : Concept) :
    Tracks good lost (r.conceptHolds ask c k) (r.conceptHolds ask' c k) :=
  Tracks.allM _ fun q => requirementHolds_tracks h c q

/-- Whether the type `k` meets the requirement `q` of `c`, if `holds` are the
    answers to all queries. -/
def meets (r : Registry) (holds : Query → Bool) (c : Concept) (k : Key) (q : Requirement) : Bool :=
  r.candidatesMeet q k <|
    match q.mode with
    | .member => r.memberCandidates (q.subjectFor k) q.name (q.paramsFor k) none
    | .free => Contingent.standing holds (r.requirementCandidates c q k)

theorem requirementHolds_pure [LawfulMonad m] (holds : Query → Bool) (c : Concept) (k : Key)
    (q : Requirement) :
    r.requirementHolds (fun q => (pure (holds q) : m Bool)) c k q =
      pure (r.meets holds c k q) := by
  rw [requirementHolds, meets]
  cases q.mode with
  | member => rfl
  | free => rw [Contingent.settleAll_pure, pure_bind]

theorem conceptHolds_pure [LawfulMonad m] (holds : Query → Bool) (c : Concept) (k : Key) :
    r.conceptHolds (fun q => (pure (holds q) : m Bool)) c k =
      pure (c.requirements.all (r.meets holds c k)) := by
  rw [conceptHolds]
  induction c.requirements with
  | nil => rfl
  | cons q rest ih =>
    rw [List.allM, requirementHolds_pure, pure_bind, List.all_cons]
    cases r.meets holds c k q with
    | true => exact ih
    | false => rfl

/-- Whether a requirement holds is judged by types, constraints and, in free
    mode, the free functions of its name that the tested constraint sees. -/
theorem requirementHolds_congr (ht : r.types = r'.types) (hc : r.concepts = r'.concepts)
    {c : Concept} {q : Requirement}
    (hv : q.mode = .free →
      r.visibleFunctions c.name.path q.name = r'.visibleFunctions c.name.path q.name)
    (ask : Query → m Bool) (k : Key) :
    r.requirementHolds ask c k q = r'.requirementHolds ask c k q := by
  unfold requirementHolds requirementCandidates
  rw [memberCandidates_congr ht, freeCandidates_congr ht, candidatesMeet_congr ht hc]
  cases hmode : q.mode with
  | member => rfl
  | free => rw [hv hmode]

/-- What a constraint requires of a type is judged by types, constraints and
    the free functions that its requirements look for. -/
theorem conceptHolds_congr (ht : r.types = r'.types) (hc : r.concepts = r'.concepts) {c : Concept}
    (hv : ∀ q ∈ c.requirements, q.mode = .free →
      r.visibleFunctions c.name.path q.name = r'.visibleFunctions c.name.path q.name)
    (ask : Query → m Bool) (k : Key) : r.conceptHolds ask c k = r'.conceptHolds ask c k :=
  allM_congr fun q hq => requirementHolds_congr ht hc (hv q hq) ask k

end Registry

end MethodResolution
