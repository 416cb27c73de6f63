/-
  Method resolution — the ranking of members.

  Members are ranked by three numbers, the first of which decides, and the next
  one where it is the same.  So, unlike extensions, they come in one line, with
  ties.

  * `memberRank`: the three numbers, in lexicographic order.  The comparison of
    members is the comparison of their ranks
    (`compareCandidates_eq_compare_memberRank`);
  * `lexicographic_of_members`: so the members of least rank are selected, in
    the order of the list: one of them if there is one only, else all as a tie.
-/
import MethodResolution.Proofs.Minima
import MethodResolution.Registry.Declaration
import Mathlib.Data.Prod.Lex
import Mathlib.Order.OrderDual

namespace MethodResolution

namespace Registry

open Selection (Transitive minima ofList)

variable {r : Registry} {receiver : DataType} {a b c : Candidate} {cs : List Candidate}

/-- The rank of a member for a call: its cost, how many arguments are passed as
    they are, of which more are better, and whether it is const, which counts
    on a receiver that may change. -/
def memberRank (receiver : DataType) (c : Candidate) : ℕ ×ₗ ℕᵒᵈ ×ₗ Bool :=
  toLex (c.fit.cost, toLex (OrderDual.toDual c.fit.exactCount,
    !receiver.isConst && c.callable.isConst))

/-- **Members compare as their ranks do.** -/
theorem compareCandidates_eq_compare_memberRank (ha : a.tier = .member) :
    r.compareCandidates receiver a b =
      compare (memberRank receiver a) (memberRank receiver b) := by
  have hconst : (if receiver.isConst then Ordering.eq
      else compare a.callable.isConst b.callable.isConst) =
      compare (!receiver.isConst && a.callable.isConst)
        (!receiver.isConst && b.callable.isConst) := by
    cases receiver.isConst <;> cases a.callable.isConst <;> cases b.callable.isConst <;> rfl
  rw [compareCandidates, ha, compareArgs, Prod.Lex.compare_def, Ordering.then_assoc]
  dsimp only
  rw [hconst]
  rfl

section
variable (h : ∀ c ∈ cs, c.tier = .member)
include h

theorem ne_gt_iff_memberRank_le (ha : a ∈ cs) :
    r.compareCandidates receiver a b ≠ .gt ↔ memberRank receiver a ≤ memberRank receiver b := by
  rw [compareCandidates_eq_compare_memberRank (h a ha), compare_le_iff_le]

theorem transitive_of_members : Transitive (r.compareCandidates receiver) cs := by
  intro a ha b hb c _ hab hbc
  rw [ne_gt_iff_memberRank_le h ha] at hab ⊢
  rw [ne_gt_iff_memberRank_le h hb] at hbc
  exact hab.trans hbc

/-- The minimal members are those of least rank. -/
theorem mem_minima_iff_memberRank_le : c ∈ minima (r.compareCandidates receiver) cs ↔
    c ∈ cs ∧ ∀ d ∈ cs, memberRank receiver c ≤ memberRank receiver d := by
  rw [Selection.mem_minima]
  refine and_congr_right fun _ => forall₂_congr fun d hd => ?_
  rw [compareCandidates_eq_compare_memberRank (h d hd), Ne, compare_lt_iff_lt, not_lt]

/-- What is selected among members. -/
theorem selectBest_of_members :
    r.selectBest receiver cs = ofList (minima (r.compareCandidates receiver) cs) :=
  Selection.best_eq_ofList_minima (compareCandidates_antisymmetric receiver h)
    (transitive_of_members h)

theorem exists_selectBest_of_members (r : Registry) (receiver : DataType) (hne : cs ≠ []) :
    ∃ s, r.selectBest receiver cs = some s ∧
      s.toList = minima (r.compareCandidates receiver) cs := by
  obtain ⟨s, hs⟩ := Option.ne_none_iff_exists'.1
    (mt (selectBest_eq_none_iff (r := r) receiver).1 hne)
  refine ⟨s, hs, Selection.toList_of_ofList ?_⟩
  rw [← selectBest_of_members h, hs]

theorem minima_ne_nil_of_members (hne : cs ≠ []) :
    minima (r.compareCandidates receiver) cs ≠ [] := by
  intro hnil
  have hbest : r.selectBest receiver cs = none := by
    rw [selectBest_of_members h, hnil]
    rfl
  exact hne ((selectBest_eq_none_iff receiver).1 hbest)

end

/-- The selection among the members `cs` is by least rank. -/
structure Lexicographic (r : Registry) (receiver : DataType) (cs : List Candidate) : Prop where
  compare_eq : ∀ a ∈ cs, ∀ b ∈ cs, r.compareCandidates receiver a b =
    compare (memberRank receiver a) (memberRank receiver b)
  /-- The comparison is a total preorder. -/
  refl : ∀ a ∈ cs, r.compareCandidates receiver a a = .eq
  swap : ∀ a ∈ cs, ∀ b ∈ cs,
    r.compareCandidates receiver b a = (r.compareCandidates receiver a b).swap
  trans : ∀ a ∈ cs, ∀ b ∈ cs, ∀ c ∈ cs, r.compareCandidates receiver a b ≠ .gt →
    r.compareCandidates receiver b c ≠ .gt → r.compareCandidates receiver a c ≠ .gt
  /-- Minimal is who has the least rank, and there is someone. -/
  mem_minima_iff : ∀ c, c ∈ minima (r.compareCandidates receiver) cs ↔
    c ∈ cs ∧ ∀ d ∈ cs, memberRank receiver c ≤ memberRank receiver d
  minima_ne_nil : minima (r.compareCandidates receiver) cs ≠ []
  /-- One that is minimal alone is selected, -/
  unique_iff : ∀ c, r.selectBest receiver cs = some (.unique c) ↔
    minima (r.compareCandidates receiver) cs = [c]
  /-- and otherwise all that are minimal tie, in the order of the list. -/
  ambiguous_iff : ∀ front tied, r.selectBest receiver cs = some (.ambiguous front tied) ↔
    minima (r.compareCandidates receiver) cs = front :: tied ∧ tied ≠ []
  /-- In another order of the list, the same ones are selected. -/
  perm : ∀ cs', cs.Perm cs' → ∃ s s', r.selectBest receiver cs = some s ∧
    r.selectBest receiver cs' = some s' ∧ s.toList.Perm s'.toList

/-- **The members of least rank are selected.** -/
theorem lexicographic_of_members (r : Registry) (receiver : DataType) (cs : List Candidate)
    (hne : cs ≠ []) (h : ∀ c ∈ cs, c.tier = .member) : r.Lexicographic receiver cs where
  compare_eq a ha b _ := compareCandidates_eq_compare_memberRank (h a ha)
  refl a ha := by
    rw [compareCandidates_eq_compare_memberRank (h a ha), compare_eq_iff_eq]
  swap := compareCandidates_antisymmetric receiver h
  trans := transitive_of_members h
  mem_minima_iff _ := mem_minima_iff_memberRank_le h
  minima_ne_nil := minima_ne_nil_of_members h hne
  unique_iff c := by rw [selectBest_of_members h, Selection.ofList_eq_unique_iff]
  ambiguous_iff front tied := by
    rw [selectBest_of_members h, Selection.ofList_eq_ambiguous_iff]
  perm cs' hperm := by
    have h' : ∀ c ∈ cs', c.tier = .member := fun c hc => h c (hperm.mem_iff.2 hc)
    have hne' : cs' ≠ [] := fun hnil => hne (List.perm_nil.1 (hnil ▸ hperm))
    obtain ⟨s, hs, hlist⟩ := exists_selectBest_of_members h r receiver hne
    obtain ⟨s', hs', hlist'⟩ := exists_selectBest_of_members h' r receiver hne'
    refine ⟨s, s', hs, hs', ?_⟩
    rw [hlist, hlist']
    exact Selection.minima_perm hperm

/-- A member with the given conversions of its arguments. -/
def rankedMember (key : Key) (isConst : Bool) (args : List (Option Conversion)) : Candidate :=
  { callable := { Callable.member ⟨1⟩ "turn" with key := key, isConst := isConst }
    tier := .member
    fit := { key := key, args := args, cost := argsCost args }
    access := .accessible }

/-- The first one costs too much, the second one is const, and the fourth one
    takes no argument as it is; the other two tie. -/
def rankedMembers : List Candidate :=
  [rankedMember ⟨11⟩ false [some ⟨.identity, 5⟩, some .identity],
    rankedMember ⟨12⟩ true [some .identity, none],
    rankedMember ⟨13⟩ false [some .identity, none],
    rankedMember ⟨14⟩ false [none, none],
    rankedMember ⟨15⟩ false [some .identity]]

theorem rankedMembers_lexicographic :
    rankedMembers ≠ [] ∧ (∀ c ∈ rankedMembers, c.tier = .member) ∧
      (initial {}).Lexicographic (.ofKey ⟨1⟩) rankedMembers ∧
      (initial {}).selectBest (.ofKey ⟨1⟩) rankedMembers =
        some (.ambiguous (rankedMember ⟨13⟩ false [some .identity, none])
          [rankedMember ⟨15⟩ false [some .identity]]) := by
  have hne : rankedMembers ≠ [] := by decide
  have htier : ∀ c ∈ rankedMembers, c.tier = .member := by decide
  have hlex := lexicographic_of_members (initial {}) (.ofKey ⟨1⟩) rankedMembers hne htier
  exact ⟨hne, htier, hlex, (hlex.ambiguous_iff _ _).2 (by decide +kernel)⟩

end Registry

end MethodResolution
