/-
  Method resolution — what it takes to subsume a constraint.

  One constraint subsumes another if it requires all that the other does, and
  its list of requirements is the longer one.  The length of the list is not
  the number of requirements: what a constraint inherits is listed once, but
  what it declares itself is listed as often as it is written.

  * `Constraint.repeats`: how often a constraint writes again what it has
    written already.  By so much its list is too long
    (`Collected.length_requirements`);
  * `RequiresMore`: one constraint requires all that another does, and
    something else;
  * `subsumedByCount_of_built`: that is what it takes to subsume, if the two
    repeat themselves equally often, and so if neither does;
  * `not_forall_subsumes_iff_requiresMore`: otherwise it is not.
-/
import MethodResolution.Candidate
import MethodResolution.Proofs.Flattening
import Mathlib.Data.Finset.Card

namespace MethodResolution

namespace Requirement

variable {known all : List Requirement}

/-- What is new in a list is different from all else in it. -/
theorem ContinuedBy.card_toFinset (h : ContinuedBy known all) :
    all.toFinset.card + known.length = known.toFinset.card + all.length := by
  obtain ⟨new, rfl, hnodup, hnew⟩ := h
  have hdisjoint : Disjoint known.toFinset new.toFinset :=
    Finset.disjoint_left.2 fun q hknown hq =>
      hnew q (List.mem_toFinset.1 hq) (List.mem_toFinset.1 hknown)
  rw [List.toFinset_append, Finset.card_union_of_disjoint hdisjoint,
    List.toFinset_card_of_nodup hnodup, List.length_append]
  omega

end Requirement

/-- How many of its own requirements a constraint has written before. -/
def Constraint.repeats (c : Constraint) : Nat := c.own.length - c.own.toFinset.card

namespace Registry

variable {r : Registry} {k ka kb : Key} {a b c : Concept}

/-- The list of requirements holds each of them once, and the repeats. -/
theorem Collected.length_requirements (h : r.Collected) (hc : r.concept? k = some c) :
    (r.requirements k).length = (r.requirements k).toFinset.card + c.repeats := by
  have hcard := (h.continuedBy_requirements hc).card_toFinset
  have hown : c.own.toFinset.card ≤ c.own.length := List.toFinset_card_le c.own
  rw [Constraint.repeats]
  omega

/-- The constraint `a` requires all that `b` requires, and something else. -/
def RequiresMore (r : Registry) (a b : Key) : Prop :=
  (∀ q ∈ r.requirements b, q ∈ r.requirements a) ∧
    ∃ q ∈ r.requirements a, q ∉ r.requirements b

instance : Decidable (r.RequiresMore ka kb) := inferInstanceAs (Decidable (_ ∧ _))

theorem subset_toFinset_iff {xs ys : List Requirement} :
    ys.toFinset ⊆ xs.toFinset ↔ ∀ q ∈ ys, q ∈ xs := by
  simp only [Finset.subset_iff, List.mem_toFinset]

/-- To require something else is to require a greater number of things. -/
theorem requiresMore_iff : r.RequiresMore ka kb ↔
    (∀ q ∈ r.requirements kb, q ∈ r.requirements ka) ∧
      (r.requirements kb).toFinset.card < (r.requirements ka).toFinset.card := by
  refine and_congr_right fun hsub => ?_
  have hsubset := subset_toFinset_iff.2 hsub
  constructor
  · rintro ⟨q, hq, hnot⟩
    refine Finset.card_lt_card ((Finset.ssubset_iff_of_subset hsubset).2 ?_)
    exact ⟨q, List.mem_toFinset.2 hq, mt List.mem_toFinset.1 hnot⟩
  · intro hcard
    by_contra hnone
    push Not at hnone
    have hle := Finset.card_le_card (subset_toFinset_iff.2 hnone)
    omega

theorem subsumes_eq_true_iff : r.subsumes ka kb = true ↔
    (∀ q ∈ r.requirements kb, q ∈ r.requirements ka) ∧
      (r.requirements kb).length < (r.requirements ka).length := by
  simp [subsumes, and_comm]

/-- Whether the constraint `a` subsumes `b`, told from what they require and how
    often they repeat it. -/
structure SubsumedByCount (r : Registry) (ka kb : Key) (a b : Concept) : Prop where
  /-- With the repeats, there has to be more of what `a` requires. -/
  counts : r.subsumes ka kb = true ↔
    (∀ q ∈ r.requirements kb, q ∈ r.requirements ka) ∧
      (r.requirements kb).toFinset.card + b.repeats <
        (r.requirements ka).toFinset.card + a.repeats
  /-- Where the two repeat themselves equally often, or neither does, that is to
      require more. -/
  strict : a.repeats = b.repeats → (r.subsumes ka kb = true ↔ r.RequiresMore ka kb)
  /-- Where `a` repeats itself less often, it has to require more, -/
  requiresMore : a.repeats ≤ b.repeats → r.subsumes ka kb = true → r.RequiresMore ka kb
  /-- and where it does so more often, this is enough. -/
  subsumes : b.repeats ≤ a.repeats → r.RequiresMore ka kb → r.subsumes ka kb = true

/-- **A constraint subsumes another if it requires strictly more**, however
    often the constraints that they refine repeat themselves, as long as these
    two do so equally often. -/
theorem subsumedByCount_of_built (r : Registry) (hr : r.Built) (ka kb : Key) (a b : Concept)
    (ha : r.concept? ka = some a) (hb : r.concept? kb = some b) :
    r.SubsumedByCount ka kb a b := by
  have hcounts : r.subsumes ka kb = true ↔
      (∀ q ∈ r.requirements kb, q ∈ r.requirements ka) ∧
        (r.requirements kb).toFinset.card + b.repeats <
          (r.requirements ka).toFinset.card + a.repeats := by
    rw [subsumes_eq_true_iff, hr.collected.length_requirements ha,
      hr.collected.length_requirements hb]
  have hmore : a.repeats ≤ b.repeats → r.subsumes ka kb = true → r.RequiresMore ka kb := by
    intro hle hsubsumes
    obtain ⟨hsub, hlt⟩ := hcounts.1 hsubsumes
    exact requiresMore_iff.2 ⟨hsub, by omega⟩
  have hsubsumes : b.repeats ≤ a.repeats → r.RequiresMore ka kb → r.subsumes ka kb = true := by
    intro hle hmore
    obtain ⟨hsub, hlt⟩ := requiresMore_iff.1 hmore
    exact hcounts.2 ⟨hsub, by omega⟩
  exact ⟨hcounts, fun heq => ⟨hmore heq.le, hsubsumes heq.ge⟩, hmore, hsubsumes⟩

/-! ### Constraints that repeat themselves -/

/-- A constraint that writes its only signature twice. -/
def rollsTwice : Constraint :=
  { name := .global "Rolls", key := ⟨1⟩, signatures := [{ name := "roll" }, { name := "roll" }] }

/-- What refines it and adds nothing. -/
def rollsAgain : Concept where
  name := .global "RollsAgain"
  key := ⟨2⟩
  refines := [⟨1⟩]
  requirements := [{ name := "roll", mode := .member }]

/-- What refines it and adds something. -/
def rollsAndSpins : Concept where
  name := .global "RollsAndSpins"
  key := ⟨3⟩
  signatures := [{ name := "spin" }]
  refines := [⟨1⟩]
  requirements := [{ name := "spin", mode := .member }, { name := "roll", mode := .member }]

def repeatingThings : Registry :=
  (initial {}).after
    [.constraint rollsTwice, .constraint rollsAgain.toConstraint,
      .constraint rollsAndSpins.toConstraint]

/-- The two that refine do not repeat themselves, though what they refine does. -/
theorem rollsAndSpins_subsumes_rollsAgain :
    repeatingThings.Built ∧ repeatingThings.concept? ⟨3⟩ = some rollsAndSpins ∧
      repeatingThings.concept? ⟨2⟩ = some rollsAgain ∧
      repeatingThings.SubsumedByCount ⟨3⟩ ⟨2⟩ rollsAndSpins rollsAgain ∧
      repeatingThings.subsumes ⟨3⟩ ⟨2⟩ = true := by
  have hbuilt : repeatingThings.Built := ⟨{}, _, rfl⟩
  have ha : repeatingThings.concept? ⟨3⟩ = some rollsAndSpins := by decide +kernel
  have hb : repeatingThings.concept? ⟨2⟩ = some rollsAgain := by decide +kernel
  have hcounted := subsumedByCount_of_built _ hbuilt ⟨3⟩ ⟨2⟩ _ _ ha hb
  refine ⟨hbuilt, ha, hb, hcounted, ?_⟩
  exact (hcounted.strict (by decide +kernel)).2 (by decide +kernel)

/-- To require more is neither needed nor enough to subsume: what refines a
    constraint that repeats itself is subsumed by it, or is a match for it. -/
theorem not_forall_subsumes_iff_requiresMore :
    (¬ ∀ (r : Registry) (ka kb : Key), r.Built → r.concepts.contains ka = true →
      r.concepts.contains kb = true → r.subsumes ka kb = true → r.RequiresMore ka kb) ∧
    ¬ ∀ (r : Registry) (ka kb : Key), r.Built → r.concepts.contains ka = true →
      r.concepts.contains kb = true → r.RequiresMore ka kb → r.subsumes ka kb = true := by
  have hbuilt : repeatingThings.Built := ⟨{}, _, rfl⟩
  constructor
  · intro h
    have hmore : repeatingThings.RequiresMore ⟨1⟩ ⟨2⟩ :=
      h _ _ _ hbuilt (by decide +kernel) (by decide +kernel) (by decide +kernel)
    exact absurd hmore (by decide +kernel)
  · intro h
    have hsubsumes : repeatingThings.subsumes ⟨3⟩ ⟨1⟩ = true :=
      h _ _ _ hbuilt (by decide +kernel) (by decide +kernel) (by decide +kernel)
    exact absurd hsubsumes (by decide +kernel)

end Registry

end MethodResolution
