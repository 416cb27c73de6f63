/-
  Method resolution — what admits free functions and imports.

  A registry admits a free function for two reasons: the function is fit for
  the declared types and constraints, on the policy of the program (`unfit?`),
  and its key is new.  The first does not depend on free functions and imports
  at all.

  * `receiverFault?_eq_none_iff`, `constraintFault?_eq_none_iff`,
    `typeFault?_eq_none_iff`: what makes a function fit, part by part;
  * `reports`: a list of declarations with the outcome of registering each;
  * `acceptsAll_iff`: a list of free functions and imports is accepted as a
    whole if each function is fit and all their keys are new and different
    (`Admits`).  This says nothing of their order.
-/
import MethodResolution.Proofs.Locality
import MethodResolution.Proofs.Registration

namespace MethodResolution

namespace Registry

variable {r r' : Registry}

/-! ## What makes a function fit -/

/-- Why `c` is refused as a free function, whatever other functions there are. -/
def unfit? (r : Registry) (c : Callable) : Option RegistrationError :=
  (r.receiverFault? c <|> r.constraintFault? c <|> r.typeFault? c).map (⟨c.span, ·⟩) <|>
    if c.isExtension then r.bodyError? c else none

/-- **A free function is admitted if it is fit and its key is new.** -/
theorem freeError?_eq_none_iff {c : Callable} :
    r.freeError? c = none ↔ r.unfit? c = none ∧ r.functions.contains c.key = false := by
  have hassoc : r.freeError? c = (r.unfit? c <|>
      if r.functions.contains c.key then
        some ⟨c.span, .duplicateDefinition (r.signatureText c)⟩ else none) := by
    rw [freeError?, unfit?]
    simp only [Option.orElse_eq_orElse, Option.orElse_eq_or, Option.or_assoc]
  rw [hassoc]
  simp only [Option.orElse_eq_orElse, Option.orElse_eq_or, Option.or_eq_none_iff]
  cases r.functions.contains c.key <;> simp

/-- What is admitted is at fault neither in its receiver nor in its constraint
    nor in its types. -/
theorem faults_of_freeError? {c : Callable} (h : r.freeError? c = none) :
    r.receiverFault? c = none ∧ r.constraintFault? c = none ∧ r.typeFault? c = none := by
  have hunfit := (freeError?_eq_none_iff.1 h).1
  simp only [unfit?, Option.orElse_eq_orElse, Option.orElse_eq_or, Option.or_eq_none_iff,
    Option.map_eq_none_iff] at hunfit
  exact hunfit.1

/-- A receiver has to be the first parameter, passed by the convention. -/
theorem receiverFault?_eq_none_iff {c : Callable} :
    r.receiverFault? c = none ↔ ∀ i ∈ c.receiver, i = 0 ∧ ∃ p, c.params.head? = some p ∧
      p.type.indirection = r.policy.convention.indirection := by
  rw [receiverFault?]
  cases c.receiver with
  | none => simp
  | some index =>
    cases index with
    | succ index => simp
    | zero =>
      cases c.params with
      | nil => simp
      | cons p ps => simp

/-- A constraint and a constrained first parameter go together, and the
    constraint has to be known. -/
theorem constraintFault?_eq_none_iff {c : Callable} :
    r.constraintFault? c = none ↔ c.constraint.isSome = c.takesConstrained ∧
      ∀ k ∈ c.constraint, r.concepts.contains k = true := by
  rw [constraintFault?]
  cases c.constraint with
  | none => cases c.takesConstrained <;> simp
  | some k => cases c.takesConstrained <;> simp

/-- All types have to be known, but for that of a constrained parameter. -/
theorem typeFault?_eq_none_iff {c : Callable} :
    r.typeFault? c = none ↔ ∀ k ∈ c.params.map (·.type.type) ++ [c.returns.type],
      k = Key.constrained ∨ r.types.contains k = true := by
  rw [typeFault?, List.findSome?_eq_none_iff]
  refine forall₂_congr fun k _ => ?_
  split_ifs with hknown
  · exact iff_of_true rfl hknown
  · exact iff_of_false (by simp) hknown

theorem constrainedUseFault?_congr (hc : r.concepts = r'.concepts) :
    r.constrainedUseFault? = r'.constrainedUseFault? := by
  funext function constraint name
  unfold constrainedUseFault? requiresMember
  rw [requirements_congr hc, conceptText_congr hc]

theorem concreteUseFault?_congr (ht : r.types = r'.types) :
    r.concreteUseFault? = r'.concreteUseFault? := by
  funext function k name
  unfold concreteUseFault?
  rw [membersNamed_congr ht, typeName_congr ht]

theorem bodyError?_congr (ht : r.types = r'.types) (hc : r.concepts = r'.concepts) :
    r.bodyError? = r'.bodyError? := by
  have huse : r.useFault? = r'.useFault? := by
    funext c k name
    unfold useFault?
    rw [constrainedUseFault?_congr hc, concreteUseFault?_congr ht]
  funext c
  unfold bodyError?
  rw [huse]

/-- What makes a function fit does not depend on other functions. -/
theorem unfit?_congr (ht : r.types = r'.types) (hc : r.concepts = r'.concepts)
    (hp : r.policy = r'.policy) : r.unfit? = r'.unfit? := by
  funext c
  simp only [unfit?, receiverFault?, constraintFault?, typeFault?, bodyError?_congr ht hc, ht, hc,
    hp]

end Registry

/-! ## Lists of free functions and imports -/

namespace Declaration

/-- Whether a free function or an import is declared, which is all that goes
    into the namespaces. -/
def isScoped : Declaration → Bool
  | free _ | import_ _ _ => true
  | primitives | ofClass _ | member _ _ | constraint _ => false

/-- The key under which a free function is registered. -/
def freeKey? : Declaration → Option Key
  | free c => some c.asFree.key
  | primitives | ofClass _ | member _ _ | constraint _ | import_ _ _ => none

end Declaration

namespace Registry

variable {r r' r'' : Registry} {d : Declaration} {ds ds' : List Declaration}

/-- The declarations of a list, each with the outcome of registering it. -/
def reports (r : Registry) :
    List Declaration → List (Declaration × Except RegistrationError (Option Key))
  | [] => []
  | d :: ds => (d, (r.declare d).map Prod.fst) :: (r.next d).reports ds

/-- All declarations of a list are accepted, one after the other. -/
def AcceptsAll (r : Registry) (ds : List Declaration) : Prop :=
  ∀ report ∈ r.reports ds, report.2.isOk

instance : Decidable (r.AcceptsAll ds) := inferInstanceAs (Decidable (∀ report ∈ _, _))

theorem acceptsAll_cons :
    r.AcceptsAll (d :: ds) ↔ (∃ k r', r.Accepts d k r') ∧ (r.next d).AcceptsAll ds := by
  rw [AcceptsAll, reports, List.forall_mem_cons]
  refine and_congr ?_ Iff.rfl
  constructor
  · intro hok
    rcases hd : r.declare d with error | ⟨k, r'⟩
    · rw [hd] at hok
      cases hok
    · exact ⟨k, r', declare_eq_ok_iff.1 hd⟩
  · rintro ⟨k, r', haccepts⟩
    rw [declare_eq_ok_iff.2 haccepts]
    rfl

/-- A free function or an import is reported under the key that it has by
    itself. -/
theorem reports_of_acceptsAll (hds : ∀ d ∈ ds, d.isScoped) (h : r.AcceptsAll ds) :
    r.reports ds = ds.map fun d => (d, .ok d.freeKey?) := by
  induction ds generalizing r with
  | nil => rfl
  | cons d ds ih =>
    obtain ⟨⟨k, r', haccepts⟩, hrest⟩ := acceptsAll_cons.1 h
    rw [reports, List.map_cons, ih (fun d hd => hds d (List.mem_cons_of_mem _ hd)) hrest,
      declare_eq_ok_iff.2 haccepts]
    have hscoped := hds d List.mem_cons_self
    cases haccepts with
    | primitives | ofClass _ _ | member _ | constraint _ _ => cases hscoped
    | free _ => rfl
    | import_ => rfl

/-- Every function of the list is fit, and all their keys are new and
    different. -/
structure Admits (r : Registry) (ds : List Declaration) : Prop where
  fit : ∀ c, .free c ∈ ds → r.unfit? c.asFree = none
  fresh : ∀ k ∈ ds.filterMap Declaration.freeKey?, r.functions.contains k = false
  distinct : (ds.filterMap Declaration.freeKey?).Nodup

/-- The order of a list does not matter for its admission. -/
theorem Admits.perm (h : r.Admits ds) (hperm : ds.Perm ds') : r.Admits ds' where
  fit c hc := h.fit c (hperm.mem_iff.2 hc)
  fresh k hk := h.fresh k ((hperm.filterMap _).mem_iff.2 hk)
  distinct := (hperm.filterMap _).nodup_iff.1 h.distinct

theorem admits_addFree {c : Callable} :
    (r.addFree c).Admits ds ↔ r.Admits ds ∧ c.key ∉ ds.filterMap Declaration.freeKey? := by
  have hunfit : (r.addFree c).unfit? = r.unfit? := unfit?_congr rfl rfl rfl
  have hcontains : ∀ k, (r.addFree c).functions.contains k = false ↔
      k ≠ c.key ∧ r.functions.contains k = false := by
    intro k
    rw [addFree, Table.contains_insert]
    simp
  constructor
  · intro h
    refine ⟨⟨hunfit ▸ h.fit, fun k hk => ((hcontains k).1 (h.fresh k hk)).2, h.distinct⟩, ?_⟩
    intro hmem
    exact ((hcontains _).1 (h.fresh _ hmem)).1 rfl
  · rintro ⟨h, hnew⟩
    refine ⟨hunfit ▸ h.fit, fun k hk => (hcontains k).2 ⟨?_, h.fresh k hk⟩, h.distinct⟩
    rintro rfl
    exact hnew hk

theorem admits_registerUsing {path imported : List String} :
    (r.registerUsing path imported).Admits ds ↔ r.Admits ds := by
  have hunfit : (r.registerUsing path imported).unfit? = r.unfit? := unfit?_congr rfl rfl rfl
  exact ⟨fun h => ⟨hunfit ▸ h.fit, h.fresh, h.distinct⟩,
    fun h => ⟨hunfit ▸ h.fit, h.fresh, h.distinct⟩⟩

theorem admits_cons_free {c : Callable} :
    r.Admits (.free c :: ds) ↔
      r.freeError? c.asFree = none ∧ (r.addFree c.asFree).Admits ds := by
  have hkeys : (Declaration.free c :: ds).filterMap Declaration.freeKey? =
      c.asFree.key :: ds.filterMap Declaration.freeKey? := rfl
  rw [admits_addFree, freeError?_eq_none_iff]
  constructor
  · rintro ⟨hfit, hfresh, hdistinct⟩
    rw [hkeys] at hfresh hdistinct
    obtain ⟨hnew, hnodup⟩ := List.nodup_cons.1 hdistinct
    refine ⟨⟨hfit c List.mem_cons_self, hfresh _ List.mem_cons_self⟩, ⟨?_, ?_, hnodup⟩, hnew⟩
    · exact fun d hd => hfit d (List.mem_cons_of_mem _ hd)
    · exact fun k hk => hfresh k (List.mem_cons_of_mem _ hk)
  · rintro ⟨⟨hfit, hfresh⟩, h, hnew⟩
    refine ⟨fun d hd => ?_, ?_, ?_⟩
    · rcases List.mem_cons.1 hd with heq | hd
      · cases heq
        exact hfit
      · exact h.fit d hd
    · rw [hkeys]
      exact List.forall_mem_cons.2 ⟨hfresh, h.fresh⟩
    · rw [hkeys]
      exact List.nodup_cons.2 ⟨hnew, h.distinct⟩

theorem admits_cons_import {path imported : List String} :
    r.Admits (.import_ path imported :: ds) ↔ r.Admits ds := by
  have hkeys : (Declaration.import_ path imported :: ds).filterMap Declaration.freeKey? =
      ds.filterMap Declaration.freeKey? := rfl
  constructor
  · rintro ⟨hfit, hfresh, hdistinct⟩
    exact ⟨fun c hc => hfit c (List.mem_cons_of_mem _ hc), hkeys ▸ hfresh, hkeys ▸ hdistinct⟩
  · rintro ⟨hfit, hfresh, hdistinct⟩
    refine ⟨fun c hc => hfit c ?_, hkeys ▸ hfresh, hkeys ▸ hdistinct⟩
    exact (List.mem_cons.1 hc).resolve_left (by simp)

/-- **A list of free functions and imports is accepted if it is admitted**,
    which does not depend on the order. -/
theorem acceptsAll_iff (hds : ∀ d ∈ ds, d.isScoped) : r.AcceptsAll ds ↔ r.Admits ds := by
  induction ds generalizing r with
  | nil => exact ⟨fun _ => ⟨by simp, by simp, by simp⟩, fun _ => by simp [AcceptsAll, reports]⟩
  | cons d ds ih =>
    have hrest : ∀ d ∈ ds, d.isScoped := fun d hd => hds d (List.mem_cons_of_mem _ hd)
    rw [acceptsAll_cons, ih hrest]
    cases d with
    | primitives | ofClass _ | member _ _ | constraint _ =>
      exact absurd (hds _ List.mem_cons_self) (by simp [Declaration.isScoped])
    | free c =>
      rw [admits_cons_free]
      constructor
      · rintro ⟨⟨k, r', haccepts⟩, h⟩
        rw [haccepts.next_eq] at h
        cases haccepts with
        | free herror => exact ⟨herror, h⟩
      · rintro ⟨herror, h⟩
        have haccepts : r.Accepts (.free c) _ _ := .free herror
        exact ⟨⟨_, _, haccepts⟩, haccepts.next_eq ▸ h⟩
    | import_ path imported =>
      rw [admits_cons_import]
      have haccepts : r.Accepts (.import_ path imported) _ _ := .import_
      rw [haccepts.next_eq, admits_registerUsing]
      exact and_iff_right ⟨_, _, haccepts⟩

end Registry

end MethodResolution
