/-
  Method resolution — the best candidate, position by position.

  A list of candidates may hold equal ones, and each of them is a candidate of
  its own.  Which one is selected is said here of the positions of the list.

  * `LeadsAt`: the element at a position compares strictly better than the one
    at every other position.  That is to dominate the list (`leadsAt_iff`), and
    it can be said of one position at most (`LeadsAt.unique`);
  * `Dominates.sublist`: who dominates a list dominates what is left of it when
    others are taken out;
  * `wellRanked_of_tier`: so the selection among the candidates of one tier is
    the one at the leading position, in whatever order they come, and whichever
    of the others are missing.
-/
import MethodResolution.Proofs.Domination
import MethodResolution.Registry.Declaration
import Mathlib.Data.List.Perm.Basic

namespace MethodResolution

namespace Selection

variable {α : Type} {cmp : α → α → Ordering} {xs ys : List α} {x : α} {i j : Nat}

/-! ## Leading positions -/

/-- The element at the position `i` compares strictly better than the one at
    every other position. -/
def LeadsAt (cmp : α → α → Ordering) (xs : List α) (i : Nat) : Prop :=
  ∃ x, xs[i]? = some x ∧ ∀ j y, j ≠ i → xs[j]? = some y → cmp x y = .lt

/-- At most one position leads. -/
theorem LeadsAt.unique (hanti : Antisymmetric cmp xs) (hi : LeadsAt cmp xs i)
    (hj : LeadsAt cmp xs j) : i = j := by
  obtain ⟨x, hx, hbeats⟩ := hi
  obtain ⟨y, hy, hbeats'⟩ := hj
  by_contra hne
  have hxy : cmp x y = .lt := hbeats j y (Ne.symm hne) hy
  have hyx : cmp y x = .lt := hbeats' i x hne hx
  rw [hanti x (List.mem_of_getElem? hx) y (List.mem_of_getElem? hy), hxy] at hyx
  cases hyx

variable [DecidableEq α]

/-- A position leads if its element dominates the list. -/
theorem leadsAt_iff (hx : xs[i]? = some x) : LeadsAt cmp xs i ↔ Dominates cmp xs x := by
  obtain ⟨hi, rfl⟩ := List.getElem?_eq_some_iff.1 hx
  rw [dominates_iff_of_perm_cons (List.getElem_cons_eraseIdx_perm hi).symm]
  constructor
  · rintro ⟨_, hfront, hbeats⟩ y hy
    cases hx.symm.trans hfront
    obtain ⟨j, hne, hj⟩ := List.mem_eraseIdx_iff_getElem?.1 hy
    exact hbeats j y hne hj
  · intro hbeats
    exact ⟨_, hx, fun j y hne hj =>
      hbeats y (List.mem_eraseIdx_iff_getElem?.2 ⟨j, hne, hj⟩)⟩

theorem dominates_iff_exists_leadsAt :
    Dominates cmp xs x ↔ ∃ i, xs[i]? = some x ∧ LeadsAt cmp xs i := by
  constructor
  · intro hx
    obtain ⟨i, hi⟩ := List.mem_iff_getElem?.1 hx.1
    exact ⟨i, hi, (leadsAt_iff hi).2 hx⟩
  · rintro ⟨i, hi, hleads⟩
    exact (leadsAt_iff hi).1 hleads

/-- Who dominates a list dominates what is left of it. -/
theorem Dominates.sublist (hx : Dominates cmp xs x) (hsub : ys.Sublist xs) (hmem : x ∈ ys) :
    Dominates cmp ys x :=
  ⟨hmem, fun y hy => hx.2 y ((hsub.erase x).mem hy)⟩

end Selection

namespace Registry

open Selection (LeadsAt)

variable {r : Registry}

/-! ## The selection among candidates of one tier -/

/-- The selection among the candidates `cs` is a matter of how each of them
    compares with the others, and not of the scan that finds it. -/
structure WellRanked (r : Registry) (receiver : DataType) (cs : List Candidate) : Prop where
  /-- The comparison of two candidates is turned around with them. -/
  swap : ∀ a ∈ cs, ∀ b ∈ cs,
    r.compareCandidates receiver b a = (r.compareCandidates receiver a b).swap
  selects : ∃ s, r.selectBest receiver cs = some s
  /-- The one that beats all others is selected, and no other one. -/
  unique_iff : ∀ c, r.selectBest receiver cs = some (.unique c) ↔
    ∃ i, cs[i]? = some c ∧ LeadsAt (r.compareCandidates receiver) cs i
  leads_unique : ∀ i j, LeadsAt (r.compareCandidates receiver) cs i →
    LeadsAt (r.compareCandidates receiver) cs j → i = j
  /-- The order of the candidates does not matter for the one that is selected, -/
  unique_perm : ∀ cs', cs.Perm cs' → ∀ c,
    r.selectBest receiver cs' = some (.unique c) ↔ r.selectBest receiver cs = some (.unique c)
  /-- nor for whether there is one. -/
  ambiguous_perm : ∀ cs', cs.Perm cs' →
    ((∃ front tied, r.selectBest receiver cs' = some (.ambiguous front tied)) ↔
      ∃ front tied, r.selectBest receiver cs = some (.ambiguous front tied))
  /-- Without some of the others, the same one is selected. -/
  unique_sublist : ∀ c cs', r.selectBest receiver cs = some (.unique c) → cs'.Sublist cs →
    c ∈ cs' → r.selectBest receiver cs' = some (.unique c)

/-- **The selection among the candidates of one tier is the one at the leading
    position**, in any order and without any of the others.  The comparison of
    extensions need not be transitive for this. -/
theorem wellRanked_of_tier {cs : List Candidate} {tier : Tier} (receiver : DataType)
    (hne : cs ≠ []) (htier : ∀ c ∈ cs, c.tier = tier) : r.WellRanked receiver cs := by
  have hanti := compareCandidates_antisymmetric (r := r) receiver htier
  have htier_perm : ∀ cs', cs.Perm cs' → ∀ c ∈ cs', c.tier = tier :=
    fun cs' hperm c hc => htier c (hperm.mem_iff.2 hc)
  refine ⟨hanti, ?_, fun c => ?_, fun i j => LeadsAt.unique hanti, fun cs' hperm c => ?_,
    fun cs' hperm => ?_, fun c cs' hc hsub hmem => ?_⟩
  · rw [← Option.ne_none_iff_exists', Ne, selectBest_eq_none_iff]
    exact hne
  · rw [selectBest_eq_unique_iff htier, Selection.dominates_iff_exists_leadsAt]
  · rw [selectBest_eq_unique_iff (htier_perm cs' hperm), selectBest_eq_unique_iff htier,
      Selection.dominates_iff_of_perm hperm]
  · rw [selectBest_eq_ambiguous_iff (htier_perm cs' hperm), selectBest_eq_ambiguous_iff htier]
    simp only [Selection.dominates_iff_of_perm hperm, ne_eq, ← List.length_eq_zero_iff,
      hperm.length_eq]
  · rw [selectBest_eq_unique_iff htier] at hc
    exact (selectBest_eq_unique_iff fun c hc => htier c (hsub.mem hc)).2 (hc.sublist hsub hmem)

/-- The constraint 2 requires what 1 does and more, and 3 something else. -/
def gradedConcepts : Registry :=
  (initial {}).after
    [.constraint { name := .global "Rolls", key := ⟨1⟩, signatures := [{ name := "roll" }] },
      .constraint
        { name := .global "Spins", key := ⟨2⟩, signatures := [{ name := "spin" }],
          refines := [⟨1⟩] },
      .constraint { name := .global "Stops", key := ⟨3⟩, signatures := [{ name := "stop" }] }]

/-- An extension under the given key and constraint, to which the receiver
    converts at the given cost. -/
def gradedCandidate (key : Key) (constraint : Option Key) (cost : Nat) : Candidate :=
  { callable := { Callable.free (.global "turn") with key := key, constraint := constraint }
    tier := .extension
    fit := { key := key, receiver := some ⟨.identity, cost⟩ }
    access := .accessible }

/-- Each of the first three beats the next in a circle: the first by its
    stricter constraint, the others by their receiver.  The last beats them all. -/
def circlingCandidates : List Candidate :=
  [gradedCandidate ⟨11⟩ (some ⟨2⟩) 2, gradedCandidate ⟨12⟩ (some ⟨1⟩) 0,
    gradedCandidate ⟨13⟩ (some ⟨3⟩) 1, gradedCandidate ⟨14⟩ none 3]

theorem circlingCandidates_wellRanked :
    circlingCandidates ≠ [] ∧ (∀ c ∈ circlingCandidates, c.tier = .extension) ∧
      gradedConcepts.selectBest (.ofKey ⟨7⟩) circlingCandidates =
        some (.unique (gradedCandidate ⟨14⟩ none 3)) ∧
      gradedConcepts.WellRanked (.ofKey ⟨7⟩) circlingCandidates := by
  have htier : ∀ c ∈ circlingCandidates, c.tier = .extension := by decide
  exact ⟨by decide, htier, by decide +kernel, wellRanked_of_tier _ (by decide) htier⟩

/-- Without the last one, nobody leads the circle. -/
example : ∀ s, gradedConcepts.selectBest (.ofKey ⟨7⟩) (circlingCandidates.take 3) = some s →
    s.toList.length = 2 := by decide +kernel

end Registry

end MethodResolution
