/-
  Method resolution — what a constraint requires in all.

  When a constraint is registered, its requirements are collected from its own
  and from the lists of the constraints it refines, one level up.  These are
  never looked at again.  Here is what such a list holds, in terms of what is
  declared.

  * `ContinuedBy`: a list of requirements gets new ones behind it, each of them
    once.  This is what collecting makes of a constraint's own
    (`continuedBy_inherited`);
  * `Refines`: one constraint names another among those it refines;
  * `Collected`: every constraint refines known ones, requires what is collected
    from these as they are now, and cannot be reached from itself.  Registration
    keeps this (`Accepts.collected`), since a new constraint is refined by none;
  * `flattened_of_built`: so a constraint requires what is declared by those
    that can be reached from it, and does so for good.
-/
import MethodResolution.Proofs.Atomicity
import MethodResolution.Proofs.Refinement
import Mathlib.Data.List.Nodup
import Mathlib.Logic.Relation
import Mathlib.Order.WellFounded

namespace MethodResolution

open Relation (ReflTransGen TransGen)

/-! ## Lists that are continued -/

namespace Requirement

variable {q : Requirement} {known more all : List Requirement}

/-- The list `all` is `known` with new requirements behind it, each of them
    once. -/
def ContinuedBy (known all : List Requirement) : Prop :=
  ∃ new, all = known ++ new ∧ new.Nodup ∧ ∀ q ∈ new, q ∉ known

theorem ContinuedBy.refl (known : List Requirement) : ContinuedBy known known :=
  ⟨[], (List.append_nil known).symm, List.nodup_nil, fun _ hq => absurd hq List.not_mem_nil⟩

theorem ContinuedBy.trans (h : ContinuedBy known more) (h' : ContinuedBy more all) :
    ContinuedBy known all := by
  obtain ⟨new, rfl, hnodup, hnew⟩ := h
  obtain ⟨new', rfl, hnodup', hnew'⟩ := h'
  refine ⟨new ++ new', List.append_assoc .., ?_, fun q hq => ?_⟩
  · refine List.nodup_append.2 ⟨hnodup, hnodup', fun q hq q' hq' heq => ?_⟩
    exact hnew' q' hq' (List.mem_append_right _ (heq ▸ hq))
  · rcases List.mem_append.1 hq with hq | hq
    · exact hnew q hq
    · exact fun hknown => hnew' q hq (List.mem_append_left _ hknown)

/-- What is new occurs once. -/
theorem ContinuedBy.count_eq_one (h : ContinuedBy known all) (hq : q ∈ all) (hknown : q ∉ known) :
    all.count q = 1 := by
  obtain ⟨new, rfl, hnodup, -⟩ := h
  have hnew : q ∈ new := (List.mem_append.1 hq).resolve_left hknown
  rw [List.count_append, List.count_eq_zero_of_not_mem hknown, Nat.zero_add]
  exact List.count_eq_one_of_mem hnodup hnew

end Requirement

namespace Registry

open Requirement (ContinuedBy)

variable {r r' : Registry} {c : Constraint} {k : Key} {q : Requirement}

theorem continuedBy_addRequirements (known more : List Requirement) :
    ContinuedBy known (addRequirements known more) := by
  rw [addRequirements]
  induction more generalizing known with
  | nil => exact .refl known
  | cons q more ih =>
    rw [List.foldl_cons]
    split_ifs with hq
    · exact ih known
    · have hone : ContinuedBy known (known ++ [q]) :=
        ⟨[q], rfl, List.nodup_singleton q, fun p hp => List.mem_singleton.1 hp ▸ hq⟩
      exact hone.trans (ih _)

theorem continuedBy_foldl (r : Registry) (known : List Requirement) (refines : List Key) :
    ContinuedBy known
      (refines.foldl (fun known k => addRequirements known (r.requirements k)) known) := by
  induction refines generalizing known with
  | nil => exact .refl known
  | cons k refines ih => exact (continuedBy_addRequirements known _).trans (ih _)

/-- **What is collected continues a constraint's own requirements.** -/
theorem continuedBy_inherited (r : Registry) (c : Constraint) : ContinuedBy c.own (r.inherited c) :=
  continuedBy_foldl r c.own c.refines

theorem mem_inherited : q ∈ r.inherited c ↔ q ∈ c.own ∨ ∃ k ∈ c.refines, q ∈ r.requirements k := by
  rw [inherited]
  generalize c.own = known
  induction c.refines generalizing known with
  | nil => simp
  | cons k refines ih =>
    rw [List.foldl_cons, ih, mem_addRequirements, or_assoc, List.exists_mem_cons_iff]

/-- Only the refined constraints are looked at. -/
theorem inherited_congr (h : ∀ k ∈ c.refines, r'.requirements k = r.requirements k) :
    r'.inherited c = r.inherited c :=
  List.foldl_ext _ _ _ fun _ k hk => by rw [h k hk]

/-- What is collected for an accepted constraint comes from other constraints,
    all of them known. -/
theorem of_inherit_eq_ok {requirements : List Requirement}
    (h : r.inherit c c.own c.refines = .ok requirements) :
    requirements = r.inherited c ∧
      ∀ k ∈ c.refines, k ≠ c.key ∧ ∃ d, r.concept? k = some d := by
  rw [inherit_eq] at h
  split at h
  · cases h
  · next hnone =>
    refine ⟨(Except.ok.inj h).symm, fun k hk => ?_⟩
    have hfault := List.findSome?_eq_none_iff.1 hnone k hk
    rw [refinementFault?] at hfault
    split_ifs at hfault with hself hunknown
    have hknown : (r.concept? k).isSome := by
      simpa [← Option.isSome_iff_ne_none] using hunknown
    exact ⟨hself, Option.isSome_iff_exists.1 hknown⟩

/-! ## Refinement -/

/-- The constraint `a` names `b` among those it refines. -/
def Refines (r : Registry) (a b : Key) : Prop := ∃ c, r.concept? a = some c ∧ b ∈ c.refines

/-- Every constraint is collected from known ones, and refinement comes to an
    end. -/
structure Collected (r : Registry) : Prop where
  known : ∀ a b, r.Refines a b → ∃ d, r.concept? b = some d
  requirements_eq : ∀ k c, r.concept? k = some c → c.requirements = r.inherited c.toConstraint
  wellFounded : WellFounded fun b a => r.Refines a b

theorem Collected.congr (h : r.Collected) (hconcepts : r'.concept? = r.concept?) :
    r'.Collected := by
  have hrequirements : r'.requirements = r.requirements := by
    funext k
    rw [requirements, requirements, hconcepts]
  have hrefines : r'.Refines = r.Refines := by
    funext a b
    rw [Refines, Refines, hconcepts]
  refine ⟨?_, ?_, ?_⟩
  · rw [hrefines, hconcepts]
    exact h.known
  · intro k c hc
    rw [hconcepts] at hc
    rw [h.requirements_eq k c hc, inherited_congr fun k _ => congrFun hrequirements k]
  · rw [hrefines]
    exact h.wellFounded

/-- Descent still ends when there is one more element `x` to descend from: what
    stands below the others is what stood there before, and `x` is not among it. -/
theorem wellFounded_of_new {α : Type} {below below' : α → α → Prop} {x : α}
    (h : WellFounded below) (hold : ∀ a b, a ≠ x → below' b a → below b a ∧ b ≠ x)
    (hx : ∀ b, below' b x → b ≠ x) : WellFounded below' := by
  have hacc : ∀ a, a ≠ x → Acc below' a := by
    intro a
    induction a using h.induction with
    | _ a ih =>
      intro ha
      refine ⟨a, fun b hb => ?_⟩
      obtain ⟨hbefore, hne⟩ := hold a b ha hb
      exact ih b hbefore hne
  refine ⟨fun a => ?_⟩
  by_cases ha : a = x
  · subst ha
    exact ⟨a, fun b hb => hacc b (hx b hb)⟩
  · exact hacc a ha

/-- **A new constraint is collected in the same way.**  No known constraint
    refines it, so from these, refinement leads where it led before. -/
theorem Collected.insert {requirements : List Requirement} (h : r.Collected)
    (hnew : r.concept? c.key = none) (hinherit : r.inherit c c.own c.refines = .ok requirements)
    (hself : r'.concept? c.key = some { c with requirements })
    (hother : ∀ k, k ≠ c.key → r'.concept? k = r.concept? k) : r'.Collected := by
  obtain ⟨hcollected, hrefined⟩ := of_inherit_eq_ok hinherit
  have hne : ∀ k d, r.concept? k = some d → k ≠ c.key := by
    rintro k d hd rfl
    rw [hnew] at hd
    cases hd
  have hkept : ∀ k d, r.concept? k = some d → r'.concept? k = some d :=
    fun k d hd => (hother k (hne k d hd)).trans hd
  have hold : ∀ a b, a ≠ c.key → r'.Refines a b → r.Refines a b := by
    rintro a b ha ⟨d, hd, hb⟩
    exact ⟨d, hother a ha ▸ hd, hb⟩
  have hfirst : ∀ b, r'.Refines c.key b → b ∈ c.refines := by
    rintro b ⟨d, hd, hb⟩
    cases hself.symm.trans hd
    exact hb
  have hsame : ∀ k d, r.concept? k = some d → r'.requirements k = r.requirements k := by
    intro k d hd
    rw [Registry.requirements, Registry.requirements, hother k (hne k d hd)]
  refine ⟨fun a b hab => ?_, fun k d hd => ?_, ?_⟩
  · by_cases ha : a = c.key
    · obtain ⟨d, hd⟩ := (hrefined b (hfirst b (ha ▸ hab))).2
      exact ⟨d, hkept b d hd⟩
    · obtain ⟨d, hd⟩ := h.known a b (hold a b ha hab)
      exact ⟨d, hkept b d hd⟩
  · by_cases hk : k = c.key
    · subst hk
      cases hself.symm.trans hd
      rw [hcollected]
      exact (inherited_congr fun b hb => (hrefined b hb).2.elim (hsame b)).symm
    · rw [hother k hk] at hd
      rw [h.requirements_eq k d hd]
      refine (inherited_congr fun b hb => ?_).symm
      exact (h.known k b ⟨d, hd, hb⟩).elim (hsame b)
  · refine wellFounded_of_new (x := c.key) h.wellFounded (fun a b ha hab => ?_)
      fun b hb => (hrefined b (hfirst b hb)).1
    have hbefore := hold a b ha hab
    exact ⟨hbefore, (h.known a b hbefore).elim (hne b)⟩

theorem Accepts.collected {d : Declaration} {key : Option Key} (h : r.Accepts d key r')
    (hr : r.Collected) : r'.Collected := by
  cases h with
  | primitives | ofClass _ _ | member _ | free _ | import_ => exact hr.congr rfl
  | @constraint c requirements hnew hinherit =>
    have hnone : r.concept? c.key = none := by simpa [concept?, Table.contains] using hnew
    refine hr.insert hnone hinherit ?_ fun k hk => ?_
    · rw [concept?, Table.get?_insert_self]
    · rw [concept?, Table.get?_insert_of_ne _ _ hk]
      rfl

theorem Built.collected (hr : r.Built) : r.Collected := by
  refine hr.induction (fun policy => ⟨?_, ?_, ⟨fun k => ⟨k, ?_⟩⟩⟩)
    fun _ _ _ _ hi haccepts => haccepts.collected hi
  · rintro a b ⟨c, hc, -⟩
    cases hc
  · intro k c hc
    cases hc
  · rintro b ⟨c, hc, -⟩
    cases hc

/-- No constraint can be reached from itself. -/
theorem Collected.not_transGen_self (h : r.Collected) : ¬ TransGen r.Refines k k := by
  intro hloop
  have hswap : TransGen (fun b a => r.Refines a b) k k := Relation.transGen_swap.1 hloop
  exact h.wellFounded.transGen.asymmetric k k hswap hswap

/-- **A constraint requires what is declared by those that can be reached from
    it.** -/
theorem Collected.mem_requirements_iff (h : r.Collected) : q ∈ r.requirements k ↔
    ∃ k' d, ReflTransGen r.Refines k k' ∧ r.concept? k' = some d ∧ q ∈ d.own := by
  induction k using h.wellFounded.induction with
  | _ k ih =>
    cases hc : r.concept? k with
    | none =>
      rw [requirements, hc]
      refine iff_of_false List.not_mem_nil ?_
      rintro ⟨k', d, hreach, hd, -⟩
      rcases hreach.cases_head with rfl | ⟨b, ⟨c, hc', -⟩, -⟩
      · cases hc.symm.trans hd
      · cases hc.symm.trans hc'
    | some c =>
      have hlist : r.requirements k = r.inherited c.toConstraint := by
        rw [requirements, hc]
        exact h.requirements_eq k c hc
      rw [hlist, mem_inherited]
      constructor
      · rintro (hq | ⟨b, hb, hq⟩)
        · exact ⟨k, c, .refl, hc, hq⟩
        · obtain ⟨k', d, hreach, hd⟩ := (ih b ⟨c, hc, hb⟩).1 hq
          exact ⟨k', d, hreach.head ⟨c, hc, hb⟩, hd⟩
      · rintro ⟨k', d, hreach, hd, hq⟩
        rcases hreach.cases_head with rfl | ⟨b, ⟨c', hc', hb⟩, hrest⟩
        · cases hc.symm.trans hd
          exact Or.inl hq
        · cases hc.symm.trans hc'
          exact Or.inr ⟨b, hb, (ih b ⟨c, hc, hb⟩).2 ⟨k', d, hrest, hd, hq⟩⟩

/-- A constraint's own requirements come first. -/
theorem Collected.continuedBy_requirements (h : r.Collected) {c : Concept}
    (hc : r.concept? k = some c) : ContinuedBy c.own (r.requirements k) := by
  rw [requirements, hc, Option.elim_some, h.requirements_eq k c hc]
  exact continuedBy_inherited r c.toConstraint

theorem mem_own_iff : q ∈ c.own ↔ q.mode = c.mode ∧ q.toSignature ∈ c.signatures := by
  rw [Constraint.own, List.mem_map]
  constructor
  · rintro ⟨s, hs, rfl⟩
    exact ⟨rfl, hs⟩
  · rintro ⟨hmode, hs⟩
    exact ⟨q.toSignature, hs, by rw [← hmode]⟩

/-- A known constraint stays as it is. -/
theorem concept?_after {c : Concept} (hc : r.concept? k = some c) (ds : List Declaration) :
    (r.after ds).concept? k = some c :=
  after_induction (P := fun r => r.concept? k = some c) ds
    (fun _ _ _ _ _ hc haccepts => haccepts.concept?_eq_some hc) hc

/-! ## The closure of refinement -/

/-- What the registered constraint `c` requires is the closure of what is
    declared. -/
structure Flattened (r : Registry) (k : Key) (c : Concept) : Prop where
  /-- Refinement leads to registered constraints, -/
  registered : ∀ k', ReflTransGen r.Refines k k' → ∃ d, r.concept? k' = some d
  /-- and never back. -/
  acyclic : ∀ k', ReflTransGen r.Refines k k' → ¬ TransGen r.Refines k' k'
  /-- The requirements are the signatures that the constraints on the way
      declare, each with the lookup mode of the constraint that declares it. -/
  mem_iff : ∀ q, q ∈ r.requirements k ↔ ∃ k' d, ReflTransGen r.Refines k k' ∧
    r.concept? k' = some d ∧ q.mode = d.mode ∧ q.toSignature ∈ d.signatures
  /-- What the constraint does not declare itself is listed once. -/
  inherited_once : ∀ q ∈ r.requirements k, q ∉ c.own → (r.requirements k).count q = 1
  /-- Nothing that is declared later changes the list. -/
  lasts : ∀ ds, (r.after ds).concept? k = some c ∧
    (r.after ds).requirements k = r.requirements k

/-- **The requirements of a constraint are the closure of what is declared**
    along refinement, which never loops. -/
theorem flattened_of_built (r : Registry) (hr : r.Built) (k : Key) (c : Concept)
    (hc : r.concept? k = some c) : r.Flattened k c where
  registered k' hreach := by
    rcases hreach.cases_tail with rfl | ⟨a, -, hlast⟩
    · exact ⟨c, hc⟩
    · exact hr.collected.known a k' hlast
  acyclic _ _ := hr.collected.not_transGen_self
  mem_iff q := by
    rw [hr.collected.mem_requirements_iff]
    simp only [mem_own_iff]
  inherited_once q hq hown := (hr.collected.continuedBy_requirements hc).count_eq_one hq hown
  lasts ds := by
    have hafter := concept?_after hc ds
    refine ⟨hafter, ?_⟩
    rw [requirements, requirements, hc, hafter]

/-- A constraint that writes one signature twice, names one constraint twice
    among those it refines, and comes to `Rolls` in two ways. -/
def moves : Concept where
  name := .global "Moves"
  key := ⟨4⟩
  signatures := [{ name := "move" }, { name := "move" }]
  refines := [⟨3⟩, ⟨2⟩, ⟨3⟩]
  requirements :=
    [{ name := "move", mode := .member }, { name := "move", mode := .member },
      { name := "turn", mode := .member }, { name := "roll", mode := .member },
      { name := "spin", mode := .free }]

def movingThings : Registry :=
  (initial {}).after
    [.constraint { name := .global "Rolls", key := ⟨1⟩, signatures := [{ name := "roll" }] },
      .constraint
        { name := .global "Spins", key := ⟨2⟩, mode := .free, signatures := [{ name := "spin" }],
          refines := [⟨1⟩] },
      .constraint
        { name := .global "Turns", key := ⟨3⟩, signatures := [{ name := "turn" }],
          refines := [⟨1⟩] },
      .constraint moves.toConstraint]

theorem moves_flattened :
    movingThings.Built ∧ movingThings.concept? ⟨4⟩ = some moves ∧
      movingThings.Flattened ⟨4⟩ moves := by
  have hbuilt : movingThings.Built := ⟨{}, _, rfl⟩
  have hmoves : movingThings.concept? ⟨4⟩ = some moves := by decide +kernel
  exact ⟨hbuilt, hmoves, flattened_of_built _ hbuilt _ _ hmoves⟩

end Registry

end MethodResolution
