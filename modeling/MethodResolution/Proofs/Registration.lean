/-
  Method resolution — what a declaration does.

  * `Accepts`: the ways in which a registry accepts a declaration, with the
    conditions, the key that is reported and the registry that is left behind;
  * `declare_eq_ok_iff`: there are no others.  Proofs about declarations split
    into these ways and do not unfold the registration;
  * `after_induction`: what every accepted declaration keeps, every run of
    declarations keeps, for a refused one changes nothing;
  * `Built`: a registry that a run of declarations leaves behind.  What holds of
    its free functions is what admission gives and later declarations keep
    (`Built.functions_induction`).
-/
import MethodResolution.Registry.Declaration
import Mathlib.Tactic.Common

namespace MethodResolution

namespace Callable

/-- The callable as it is registered as a member of `owner`. -/
def asMember (c : Callable) (owner : Key) : Callable := { c with owner := some owner }.keyed

/-- The callable as it is registered as a free function. -/
def asFree (c : Callable) : Callable := { c with owner := none }.keyed

end Callable

namespace Registry

/-- The registry `r` accepts a declaration under a key, if it has one, and
    becomes another registry. -/
inductive Accepts (r : Registry) : Declaration → Option Key → Registry → Prop
  | primitives : Accepts r .primitives none r.registerPrimitives
  | ofClass {c} : r.types.contains c.key = false →
      (c.base.any fun base => c.key ∈ r.lineage base) = false →
      Accepts r (.ofClass c) (some c.key) { r with types := r.types.insert c.key (.ofClass c) }
  | member {owner c} : r.memberFault? owner (c.asMember owner) = none →
      Accepts r (.member owner c) (some (c.asMember owner).key)
        (r.addMember owner (c.asMember owner))
  | free {c} : r.freeError? c.asFree = none →
      Accepts r (.free c) (some c.asFree.key) (r.addFree c.asFree)
  | constraint {c requirements} : r.concepts.contains c.key = false →
      r.inherit c c.own c.refines = .ok requirements →
      Accepts r (.constraint c) (some c.key)
        { r with concepts := r.concepts.insert c.key { c with requirements } }
  | import_ {path imported} :
      Accepts r (.import_ path imported) none (r.registerUsing path imported)

variable {r r' : Registry} {k : Option Key}

theorem registerClass_eq_ok_iff {c : Class} {k : Key} :
    r.registerClass c = .ok (k, r') ↔ r.Accepts (.ofClass c) (some k) r' := by
  rw [registerClass]
  constructor
  · intro h
    split_ifs at h with hknown hbase
    cases h
    exact .ofClass (by simpa using hknown) (by simpa using hbase)
  · rintro ⟨⟩
    next hknown hbase => rw [if_neg (by simp [hknown]), if_neg (by simp [hbase])]

theorem registerMember_eq_ok_iff {owner : Key} {c : Callable} {k : Key} :
    r.registerMember owner c = .ok (k, r') ↔ r.Accepts (.member owner c) (some k) r' := by
  rw [registerMember]
  constructor
  · intro h
    split at h
    · cases h
    · next hfault =>
      cases h
      exact .member hfault
  · rintro ⟨⟩
    next hfault =>
      rw [Callable.asMember] at hfault
      simp only [hfault]
      rfl

theorem registerFree_eq_ok_iff {c : Callable} {k : Key} :
    r.registerFree c = .ok (k, r') ↔ r.Accepts (.free c) (some k) r' := by
  rw [registerFree]
  constructor
  · intro h
    split at h
    · cases h
    · next herror =>
      cases h
      exact .free herror
  · rintro ⟨⟩
    next herror =>
      rw [Callable.asFree] at herror
      simp only [herror]
      rfl

theorem registerConstraint_eq_ok_iff {c : Constraint} {k : Key} :
    r.registerConstraint c = .ok (k, r') ↔ r.Accepts (.constraint c) (some k) r' := by
  rw [registerConstraint]
  constructor
  · intro h
    split_ifs at h with hknown
    split at h
    · cases h
    · next requirements hrequirements =>
      cases h
      exact .constraint (by simpa using hknown) hrequirements
  · rintro ⟨⟩
    next hknown hrequirements => rw [if_neg (by simp [hknown]), hrequirements]

/-- Reporting the key does not change what is accepted. -/
theorem map_some_eq_ok_iff {registration : Registration} :
    registration.map (fun (k, r) => (some k, r)) = .ok (k, r') ↔
      ∃ key, k = some key ∧ registration = .ok (key, r') := by
  rcases registration with error | ⟨key, after⟩
  · simp [Except.map]
  · simp [Except.map, eq_comm]

/-- **A declaration is accepted in one of the listed ways**, or refused. -/
theorem declare_eq_ok_iff {d : Declaration} : r.declare d = .ok (k, r') ↔ r.Accepts d k r' := by
  constructor
  · intro h
    cases d with
    | primitives =>
      cases h
      exact .primitives
    | ofClass c =>
      obtain ⟨key, rfl, hreg⟩ := map_some_eq_ok_iff.1 h
      exact registerClass_eq_ok_iff.1 hreg
    | member owner c =>
      obtain ⟨key, rfl, hreg⟩ := map_some_eq_ok_iff.1 h
      exact registerMember_eq_ok_iff.1 hreg
    | free c =>
      obtain ⟨key, rfl, hreg⟩ := map_some_eq_ok_iff.1 h
      exact registerFree_eq_ok_iff.1 hreg
    | constraint c =>
      obtain ⟨key, rfl, hreg⟩ := map_some_eq_ok_iff.1 h
      exact registerConstraint_eq_ok_iff.1 hreg
    | import_ path imported =>
      cases h
      exact .import_
  · intro h
    cases h with
    | primitives => rfl
    | ofClass hknown hbase =>
      exact map_some_eq_ok_iff.2 ⟨_, rfl, registerClass_eq_ok_iff.2 (.ofClass hknown hbase)⟩
    | member hfault =>
      exact map_some_eq_ok_iff.2 ⟨_, rfl, registerMember_eq_ok_iff.2 (.member hfault)⟩
    | free herror =>
      exact map_some_eq_ok_iff.2 ⟨_, rfl, registerFree_eq_ok_iff.2 (.free herror)⟩
    | constraint hknown hrequirements =>
      exact map_some_eq_ok_iff.2
        ⟨_, rfl, registerConstraint_eq_ok_iff.2 (.constraint hknown hrequirements)⟩
    | import_ => rfl

/-- A declaration is refused without a trace, or accepted. -/
theorem next_cases (r : Registry) (d : Declaration) :
    r.next d = r ∨ ∃ k, r.Accepts d k (r.next d) := by
  rw [next]
  rcases hd : r.declare d with error | ⟨k, r'⟩
  · exact Or.inl rfl
  · exact Or.inr ⟨k, declare_eq_ok_iff.1 hd⟩

theorem Accepts.next_eq {d : Declaration} (h : r.Accepts d k r') : r.next d = r' := by
  rw [next, declare_eq_ok_iff.2 h]

/-- An accepted declaration leaves the known constraints as they are. -/
theorem Accepts.concept?_eq_some {d : Declaration} (h : r.Accepts d k r') {key : Key} {c : Concept}
    (hc : r.concept? key = some c) : r'.concept? key = some c := by
  cases h with
  | primitives | ofClass | member | free | import_ => exact hc
  | @constraint c' requirements hnew _ =>
    rw [concept?, Table.get?_insert_of_ne]
    · exact hc
    · rintro rfl
      rw [← Bool.not_eq_true, Table.contains_iff] at hnew
      exact hnew ⟨c, hc⟩

/-- What every accepted declaration of a run keeps, the run keeps. -/
theorem after_induction {P : Registry → Prop} (ds : List Declaration)
    (step : ∀ r, ∀ d ∈ ds, ∀ k r', P r → r.Accepts d k r' → P r') (h : P r) : P (r.after ds) := by
  induction ds generalizing r with
  | nil => exact h
  | cons d ds ih =>
    refine ih (fun r d hd => step r d (List.mem_cons_of_mem _ hd)) ?_
    rcases next_cases r d with hnext | ⟨k, haccepts⟩
    · rwa [hnext]
    · exact step r d List.mem_cons_self k _ h haccepts

/-- The registry is left behind by a run of declarations. -/
def Built (r : Registry) : Prop := ∃ policy ds, r = (initial policy).after ds

theorem Built.induction {P : Registry → Prop} (h : r.Built) (base : ∀ policy, P (initial policy))
    (step : ∀ r d k r', P r → r.Accepts d k r' → P r') : P r := by
  obtain ⟨policy, ds, rfl⟩ := h
  exact after_induction ds (fun r d _ => step r d) (base policy)

/-- What holds of a free function when it is admitted, and is kept by whatever
    is declared later, holds of all that are registered. -/
theorem Built.functions_induction {P : Registry → Key → Callable → Prop} (h : r.Built)
    (admitted : ∀ (r : Registry) (c : Callable),
      r.freeError? c.asFree = none → P r c.asFree.key c.asFree)
    (kept : ∀ (r : Registry) d k r' key f, r.Accepts d k r' → P r key f → P r' key f) :
    ∀ key f, r.functions.get? key = some f → P r key f := by
  refine h.induction (P := fun r => ∀ key f, r.functions.get? key = some f → P r key f)
    (fun _ _ _ hf => by cases hf) fun r d k r' hentries haccepts key f hf => ?_
  suffices h : P r key f from kept r d k r' key f haccepts h
  cases haccepts with
  | primitives | ofClass _ _ | member _ | constraint _ _ | import_ => exact hentries key f hf
  | @free c herror =>
    rw [addFree, Table.get?_insert] at hf
    split_ifs at hf with hkey
    · cases hf
      exact hkey ▸ admitted r c herror
    · exact hentries key f hf

end Registry

end MethodResolution
