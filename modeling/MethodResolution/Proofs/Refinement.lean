/-
  Method resolution — what refining a constraint entails.

  A constraint takes over all requirements of the constraints it refines, as
  they were declared, but for one thing: a requirement in free mode looks among
  the free functions that the constraint under test sees, and not among those
  that the constraint sees which declared it.

  * `Built.inherits`: in a registry that was built, a constraint requires all
    that the constraints it refines require;
  * `satisfies_of_refines`: so a type that satisfies it satisfies these, if
    both see the same free functions of the required names;
  * `satisfies_not_of_refines`: if they do not, it need not.
-/
import MethodResolution.Proofs.Derivation
import MethodResolution.Proofs.Registration

namespace MethodResolution

namespace Registry

variable {r : Registry}

/-! ## Inherited requirements -/

theorem mem_addRequirements {known more : List Requirement} {q : Requirement} :
    q ∈ addRequirements known more ↔ q ∈ known ∨ q ∈ more := by
  rw [addRequirements]
  induction more generalizing known with
  | nil => simp
  | cons p more ih =>
    rw [List.foldl_cons, ih, List.mem_cons]
    split_ifs with hp
    · constructor
      · exact Or.imp_right Or.inr
      · rintro (hq | rfl | hq)
        · exact Or.inl hq
        · exact Or.inl hp
        · exact Or.inr hq
    · rw [List.mem_append, List.mem_singleton, or_assoc]

/-- What is inherited from known constraints contains all they require. -/
theorem inherit_eq_ok {c : Constraint} {known requirements : List Requirement} {refines : List Key}
    (h : r.inherit c known refines = .ok requirements) :
    known ⊆ requirements ∧ ∀ k ∈ refines, ∃ b, r.concept? k = some b ∧
      b.requirements ⊆ requirements := by
  induction refines generalizing known with
  | nil =>
    cases h
    exact ⟨List.Subset.refl _, fun _ hk => absurd hk List.not_mem_nil⟩
  | cons refined rest ih =>
    rw [inherit] at h
    split_ifs at h with hself
    split at h
    · next b hb =>
      obtain ⟨hknown, hrest⟩ := ih h
      refine ⟨fun q hq => hknown (mem_addRequirements.2 (Or.inl hq)), ?_⟩
      refine List.forall_mem_cons.2 ⟨⟨b, hb, fun q hq => ?_⟩, hrest⟩
      exact hknown (mem_addRequirements.2 (Or.inr hq))
    · cases h

/-- Every constraint requires all that the constraints it refines require, and
    these are known. -/
def Inherits (r : Registry) : Prop :=
  ∀ ka a, r.concept? ka = some a → ∀ kb ∈ a.refines,
    ∃ b, r.concept? kb = some b ∧ b.requirements ⊆ a.requirements

theorem Accepts.inherits {d : Declaration} {k : Option Key} {r' : Registry}
    (h : r.Accepts d k r') (hr : r.Inherits) : r'.Inherits := by
  intro ka a ha kb hkb
  suffices hbefore : ∃ b, r.concept? kb = some b ∧ b.requirements ⊆ a.requirements by
    obtain ⟨b, hb, hsub⟩ := hbefore
    exact ⟨b, h.concept?_eq_some hb, hsub⟩
  cases h with
  | primitives | ofClass | member | free | import_ => exact hr ka a ha kb hkb
  | @constraint c requirements _ hinherit =>
    rw [concept?, Table.get?_insert] at ha
    split_ifs at ha with hka
    · cases ha
      exact (inherit_eq_ok hinherit).2 kb hkb
    · exact hr ka a ha kb hkb

/-- **In a registry that was built, constraints inherit all requirements** of
    the constraints they refine. -/
theorem Built.inherits (hr : r.Built) : r.Inherits :=
  hr.induction (fun _ _ _ ha => by cases ha) fun _ _ _ _ hi haccepts => haccepts.inherits hi

/-! ## Entailment -/

/-- **A type that satisfies a constraint satisfies what it refines**, where the
    evaluations of both meet neither a cycle nor the limit, and both see the
    same free functions under the names that are required of such. -/
theorem satisfies_of_refines (r : Registry) (hr : r.Built) (ka kb k : Key) (a b : Concept)
    (ha : r.concept? ka = some a) (hkb : kb ∈ a.refines) (hb : r.concept? kb = some b)
    (hcutsa : r.cuts r.policy.depthLimit ⟨ka, k⟩ = [])
    (hcutsb : r.cuts r.policy.depthLimit ⟨kb, k⟩ = [])
    (hsee : ∀ q ∈ b.requirements, q.mode = .free →
      (r.visibleFunctions a.name.path q.name).Perm (r.visibleFunctions b.name.path q.name))
    (hsat : (r.satisfies ⟨ka, k⟩ ∅).1 = true) : (r.satisfies ⟨kb, k⟩ ∅).1 = true := by
  obtain ⟨b', hb', hsub⟩ := hr.inherits ka a ha kb hkb
  cases hb.symm.trans hb'
  have hmeets : ∀ q ∈ a.requirements, r.meets r.derived a k q = true := by
    have hall := (satisfies_derives hcutsa).eq_all ha
    rw [hsat] at hall
    exact List.all_eq_true.1 hall.symm
  rw [(satisfies_derives hcutsb).eq_all hb, List.all_eq_true]
  intro q hq
  rw [← meets_eq_of_perm rfl rfl (hsee q hq)]
  exact hmeets q (hsub hq)

/-! ### Constraints in different namespaces -/

/-- What requires a free function `roll` of the types. -/
def rolls : Concept where
  name := ⟨"Rolls", ["lib"]⟩
  key := ⟨2⟩
  mode := .free
  signatures := [{ name := "roll" }]
  requirements := [{ name := "roll", mode := .free }]

/-- What refines this in another namespace. -/
def rollsToo : Concept where
  name := ⟨"RollsToo", ["app"]⟩
  key := ⟨3⟩
  mode := .free
  refines := [⟨2⟩]
  requirements := [{ name := "roll", mode := .free }]

def refiningThings : Registry :=
  (Registry.initial {}).after
    [.primitives, .ofClass { name := .global "Thing", key := ⟨1⟩ }, .constraint rolls.toConstraint,
      .constraint rollsToo.toConstraint]

/-- Here the refining constraint sees what the other one sees, by an import. -/
def importingThings : Registry :=
  refiningThings.after
    [.constraint { name := .global "Rests", key := ⟨4⟩ },
      .free { (Callable.free ⟨"roll", ["lib"]⟩).withReceiver (.pointer Key.constrained) with
        constraint := some ⟨4⟩ },
      .import_ ["app"] ["lib"]]

theorem satisfies_rolls_of_rollsToo :
    importingThings.Built ∧ importingThings.concept? ⟨3⟩ = some rollsToo ∧
      ⟨2⟩ ∈ rollsToo.refines ∧ importingThings.concept? ⟨2⟩ = some rolls ∧
      importingThings.cuts importingThings.policy.depthLimit ⟨⟨3⟩, ⟨1⟩⟩ = [] ∧
      importingThings.cuts importingThings.policy.depthLimit ⟨⟨2⟩, ⟨1⟩⟩ = [] ∧
      (∀ q ∈ rolls.requirements, q.mode = .free →
        (importingThings.visibleFunctions rollsToo.name.path q.name).Perm
          (importingThings.visibleFunctions rolls.name.path q.name)) ∧
      (importingThings.satisfies ⟨⟨3⟩, ⟨1⟩⟩ ∅).1 = true ∧
      (importingThings.satisfies ⟨⟨2⟩, ⟨1⟩⟩ ∅).1 = true := by
  have hbuilt : importingThings.Built := ⟨{}, _, (List.foldl_append ..).symm⟩
  have ha : importingThings.concept? ⟨3⟩ = some rollsToo := by decide +kernel
  have hb : importingThings.concept? ⟨2⟩ = some rolls := by decide +kernel
  have hcutsa : importingThings.cuts importingThings.policy.depthLimit ⟨⟨3⟩, ⟨1⟩⟩ = [] := by
    decide +kernel
  have hcutsb : importingThings.cuts importingThings.policy.depthLimit ⟨⟨2⟩, ⟨1⟩⟩ = [] := by
    decide +kernel
  have hsee : ∀ q ∈ rolls.requirements, q.mode = .free →
      (importingThings.visibleFunctions rollsToo.name.path q.name).Perm
        (importingThings.visibleFunctions rolls.name.path q.name) := by
    decide +kernel
  have hsat : (importingThings.satisfies ⟨⟨3⟩, ⟨1⟩⟩ ∅).1 = true := by decide +kernel
  exact ⟨hbuilt, ha, List.mem_singleton.2 rfl, hb, hcutsa, hcutsb, hsee, hsat,
    satisfies_of_refines _ hbuilt _ _ _ _ _ ha (List.mem_singleton.2 rfl) hb hcutsa hcutsb hsee
      hsat⟩

/-- Here only the refining constraint sees a function of the required name. -/
def partedThings : Registry :=
  refiningThings.after
    [.free { Callable.free ⟨"roll", ["app"]⟩ with params := [⟨.reference ⟨1⟩, false⟩] }]

/-- Refining alone entails nothing: a type may satisfy a constraint and not what
    this refines. -/
theorem satisfies_not_of_refines :
    ¬ ∀ (r : Registry) (ka kb k : Key) (a : Concept), r.Built → r.concept? ka = some a →
      kb ∈ a.refines → r.cuts r.policy.depthLimit ⟨ka, k⟩ = [] →
      r.cuts r.policy.depthLimit ⟨kb, k⟩ = [] → (r.satisfies ⟨ka, k⟩ ∅).1 = true →
      (r.satisfies ⟨kb, k⟩ ∅).1 = true := by
  intro h
  have hbuilt : partedThings.Built := ⟨{}, _, (List.foldl_append ..).symm⟩
  have hrolls := h partedThings ⟨3⟩ ⟨2⟩ ⟨1⟩ rollsToo hbuilt (by decide +kernel)
    (List.mem_singleton.2 rfl) (by decide +kernel) (by decide +kernel) (by decide +kernel)
  have hnot : (partedThings.satisfies ⟨⟨2⟩, ⟨1⟩⟩ ∅).1 = false := by decide +kernel
  rw [hnot] at hrolls
  cases hrolls

end Registry

end MethodResolution
