/-
  Method resolution — the best of a list, without its order.

  An element dominates a list if it compares strictly better than the element
  at every other position (`Dominates`).  This says nothing about the order of
  the list, and nothing about a scan.

  * `best_eq_unique_iff`: if the comparison is antisymmetric on the list, the
    scan selects exactly the dominating element.  It need not be transitive:
    the scan may take a wrong turn before it meets the dominating element, but
    then this one takes the lead and is never overtaken;
  * `best_rel`: from lists that correspond, corresponding elements are selected,
    if they compare alike.  So what is selected depends only on how the elements
    compare with each other (`best_congr`);
  * `compareCandidates_swap`: the ranking of candidates of one tier is
    antisymmetric;
  * `selectBest_eq_unique_iff`, `selectBest_eq_ambiguous_iff`: what the ranking
    selects among the candidates of one tier, in whatever order they come.
-/
import MethodResolution.Candidate
import Mathlib.Data.List.Forall2
import Mathlib.Tactic.Common

namespace MethodResolution

namespace Selection

variable {α β : Type} {cmp : α → α → Ordering} {xs ys : List α} {x y : α}

/-! ## The front-runner of a scan -/

/-- The front-runner when a scan led by `front` has seen `rest`. -/
def leader (cmp : α → α → Ordering) (front : α) (rest : List α) : α :=
  rest.foldl (fun front x => if cmp x front = .lt then x else front) front

/-- Whoever beats all others and is beaten by none takes the lead, at the
    latest when the scan meets it, and keeps it. -/
theorem leader_eq {front : α} {rest : List α} (hmem : x ∈ front :: rest)
    (hbeats : ∀ y ∈ front :: rest, y ≠ x → cmp x y = .lt)
    (hunbeaten : ∀ y ∈ front :: rest, cmp y x ≠ .lt) : leader cmp front rest = x := by
  induction rest generalizing front with
  | nil => exact (List.mem_singleton.1 hmem).symm
  | cons z rest ih =>
    rw [leader, List.foldl_cons]
    split
    · next hlt =>
      have hfront : x ≠ front := by
        rintro rfl
        exact hunbeaten z (by simp) hlt
      refine ih ((List.mem_cons.1 hmem).resolve_left hfront) (fun y hy => ?_) (fun y hy => ?_)
      · exact hbeats y (List.mem_cons_of_mem _ hy)
      · exact hunbeaten y (List.mem_cons_of_mem _ hy)
    · next hge =>
      have hz : x = z → x = front := by
        rintro rfl
        by_contra hne
        exact hge (hbeats front List.mem_cons_self (Ne.symm hne))
      have hsub : ∀ y ∈ front :: rest, y ∈ front :: z :: rest := by
        intro y hy
        rcases List.mem_cons.1 hy with h | h
        · exact List.mem_cons.2 (Or.inl h)
        · exact List.mem_cons_of_mem _ (List.mem_cons_of_mem _ h)
      refine ih ?_ (fun y hy => hbeats y (hsub y hy)) (fun y hy => hunbeaten y (hsub y hy))
      rcases List.mem_cons.1 hmem with h | h
      · exact List.mem_cons.2 (Or.inl h)
      · rcases List.mem_cons.1 h with h | h
        · exact List.mem_cons.2 (Or.inl (hz h))
        · exact List.mem_cons_of_mem _ h

theorem scan_fst (before : List α) (front : α) (after rest : List α) :
    (scan cmp before front after rest).1 = leader cmp front rest := by
  induction rest generalizing before front after with
  | nil => rfl
  | cons z rest ih =>
    rw [scan, leader, List.foldl_cons]
    split
    · exact ih _ _ _
    · exact ih _ _ _

/-- A scan loses nothing. -/
theorem scan_perm (cmp : α → α → Ordering) (before : List α) (front : α) (after rest : List α) :
    (before ++ front :: after ++ rest).Perm
      ((scan cmp before front after rest).1 :: (scan cmp before front after rest).2) := by
  induction rest generalizing before front after with
  | nil =>
    rw [scan, List.append_nil]
    exact List.perm_middle
  | cons z rest ih =>
    rw [scan]
    split
    · simpa using ih (before ++ front :: after) z []
    · simpa using ih before front (after ++ [z])

theorem lead_cons (cmp : α → α → Ordering) (z : α) (rest : List α) : ∃ others,
    lead cmp (z :: rest) = some (leader cmp z rest, others) ∧
      (z :: rest).Perm (leader cmp z rest :: others) := by
  have hperm := scan_perm cmp [] z [] rest
  refine ⟨(scan cmp [] z [] rest).2, ?_, ?_⟩
  · rw [lead, ← scan_fst [] z [] rest]
  · rw [← scan_fst [] z [] rest]
    simpa using hperm

theorem best_eq_none_iff : best cmp xs = none ↔ xs = [] := by
  cases xs with
  | nil => simp [best, lead]
  | cons z rest => simp [best, lead]

/-- The front-runner is selected if it beats all others. -/
theorem best_of_lead {front : α} {others : List α} (h : lead cmp xs = some (front, others)) :
    best cmp xs = some (if ∀ y ∈ others, cmp front y = .lt then .unique front
      else .ambiguous front (others.filter fun y => cmp front y ≠ .lt)) := by
  rw [best, h]
  split_ifs with hall
  · have hnil : (others.filter fun y => cmp front y ≠ .lt) = [] :=
      List.filter_eq_nil_iff.2 fun y hy => by simp [hall y hy]
    simp only [Option.map_some, hnil]
  · have hne : (others.filter fun y => cmp front y ≠ .lt) ≠ [] := by
      intro hnil
      exact hall fun y hy => by simpa using List.filter_eq_nil_iff.1 hnil y hy
    simp only [Option.map_some]

/-! ## Domination -/

section
variable [DecidableEq α]

/-- `x` is an element of `xs` and compares strictly better than the element at
    every other position: than all that is left when one `x` is taken out. -/
def Dominates (cmp : α → α → Ordering) (xs : List α) (x : α) : Prop :=
  x ∈ xs ∧ ∀ y ∈ xs.erase x, cmp x y = .lt

instance : Decidable (Dominates cmp xs x) := inferInstanceAs (Decidable (_ ∧ _))

theorem Dominates.lt_of_ne (h : Dominates cmp xs x) (hy : y ∈ xs) (hne : y ≠ x) :
    cmp x y = .lt :=
  h.2 y ((List.mem_erase_of_ne hne).2 hy)

theorem dominates_iff_of_perm_cons {others : List α} (h : xs.Perm (x :: others)) :
    Dominates cmp xs x ↔ ∀ y ∈ others, cmp x y = .lt := by
  have herase : (xs.erase x).Perm others := by simpa using h.erase x
  constructor
  · intro hx y hy
    exact hx.2 y (herase.mem_iff.2 hy)
  · intro hx
    exact ⟨h.mem_iff.2 List.mem_cons_self, fun y hy => hx y (herase.mem_iff.1 hy)⟩

/-- **Domination does not depend on the order.** -/
theorem Dominates.perm (h : xs.Perm ys) (hx : Dominates cmp xs x) : Dominates cmp ys x :=
  ⟨h.mem_iff.1 hx.1, fun y hy => hx.2 y ((h.erase x).mem_iff.2 hy)⟩

theorem dominates_iff_of_perm (h : xs.Perm ys) : Dominates cmp xs x ↔ Dominates cmp ys x :=
  ⟨fun hx => hx.perm h, fun hx => hx.perm h.symm⟩

/-- The comparison of two elements of `xs` is turned around with them. -/
def Antisymmetric (cmp : α → α → Ordering) (xs : List α) : Prop :=
  ∀ x ∈ xs, ∀ y ∈ xs, cmp y x = (cmp x y).swap

/-- At most one element dominates a list. -/
theorem Dominates.unique (hanti : Antisymmetric cmp xs) (hx : Dominates cmp xs x)
    (hy : Dominates cmp xs y) : x = y := by
  by_contra hne
  have hxy : cmp x y = .lt := hx.lt_of_ne hy.1 (Ne.symm hne)
  have hyx : cmp y x = .lt := hy.lt_of_ne hx.1 hne
  rw [hanti x hx.1 y hy.1, hxy] at hyx
  cases hyx

/-- A dominating element leads at the end of the scan. -/
theorem leader_of_dominates {z : α} {rest : List α} (hanti : Antisymmetric cmp (z :: rest))
    (hx : Dominates cmp (z :: rest) x) : leader cmp z rest = x := by
  have hbeats : ∀ y ∈ z :: rest, y ≠ x → cmp x y = .lt := fun y hy hne => hx.lt_of_ne hy hne
  refine leader_eq hx.1 hbeats fun y hy hlt => ?_
  have hself : cmp x x = (cmp x x).swap := hanti x hx.1 x hx.1
  by_cases hne : y = x
  · rw [hne] at hlt
    rw [hlt] at hself
    cases hself
  · rw [hanti x hx.1 y hy, hbeats y hy hne] at hlt
    cases hlt

/-- **The scan selects the dominating element**, and nothing else. -/
theorem best_eq_unique_iff (hanti : Antisymmetric cmp xs) :
    best cmp xs = some (.unique x) ↔ Dominates cmp xs x := by
  cases xs with
  | nil => simp [best, lead, Dominates]
  | cons z rest =>
    obtain ⟨others, hlead, hperm⟩ := lead_cons cmp z rest
    have hbest := best_of_lead hlead
    constructor
    · intro h
      rw [hbest] at h
      split at h
      · next hall =>
        cases h
        exact (dominates_iff_of_perm_cons hperm).2 hall
      · cases h
    · intro hx
      rw [leader_of_dominates hanti hx] at hbest hperm
      rw [hbest, if_pos ((dominates_iff_of_perm_cons hperm).1 hx)]

/-- A list without a dominating element is a tie. -/
theorem best_eq_ambiguous_iff (hanti : Antisymmetric cmp xs) :
    (∃ front tied, best cmp xs = some (.ambiguous front tied)) ↔
      xs ≠ [] ∧ ¬ ∃ x, Dominates cmp xs x := by
  constructor
  · rintro ⟨front, tied, h⟩
    refine ⟨fun hnil => ?_, fun ⟨x, hx⟩ => ?_⟩
    · rw [best_eq_none_iff.2 hnil] at h
      cases h
    · rw [(best_eq_unique_iff hanti).2 hx] at h
      cases h
  · rintro ⟨hne, hnone⟩
    rcases hbest : best cmp xs with _ | ⟨x⟩ | ⟨front, tied⟩
    · exact absurd (best_eq_none_iff.1 hbest) hne
    · exact absurd ⟨x, (best_eq_unique_iff hanti).1 hbest⟩ hnone
    · exact ⟨front, tied, rfl⟩

end

/-! ## Lists that correspond -/

/-- Corresponding elements are selected. -/
inductive Rel (R : α → β → Prop) : Selection α → Selection β → Prop
  | unique {a b} : R a b → Rel R (.unique a) (.unique b)
  | ambiguous {a b as bs} : R a b → List.Forall₂ R as bs →
      Rel R (.ambiguous a as) (.ambiguous b bs)

section
variable {R : α → β → Prop} {cmp' : β → β → Ordering}
  (hcmp : ∀ a b, R a b → ∀ a' b', R a' b' → cmp a a' = cmp' b b')
include hcmp

theorem scan_rel {before after rest : List α} {before' after' rest' : List β} {front : α}
    {front' : β} (hbefore : List.Forall₂ R before before') (hfront : R front front')
    (hafter : List.Forall₂ R after after') (hrest : List.Forall₂ R rest rest') :
    R (scan cmp before front after rest).1 (scan cmp' before' front' after' rest').1 ∧
      List.Forall₂ R (scan cmp before front after rest).2
        (scan cmp' before' front' after' rest').2 := by
  induction hrest generalizing before before' after after' front front' with
  | nil => exact ⟨hfront, List.rel_append hbefore hafter⟩
  | cons hx _ ih =>
    rw [scan, scan, hcmp _ _ hx _ _ hfront]
    split
    · exact ih (List.rel_append hbefore (.cons hfront hafter)) hx .nil
    · exact ih hbefore hfront (List.rel_append hafter (.cons hx .nil))

/-- **From lists that correspond, corresponding elements are selected**, if they
    compare alike. -/
theorem best_rel {ys : List β} (h : List.Forall₂ R xs ys) :
    Option.Rel (Rel R) (best cmp xs) (best cmp' ys) := by
  cases h with
  | nil => exact .none
  | cons hx hrest =>
    obtain ⟨hfront, hothers⟩ := scan_rel hcmp .nil hx .nil hrest
    rw [best, best, lead, lead, Option.map_some, Option.map_some]
    generalize scan cmp [] _ [] _ = result at hfront hothers
    generalize scan cmp' [] _ [] _ = result' at hfront hothers
    have htied : List.Forall₂ R (result.2.filter fun x => cmp result.1 x ≠ .lt)
        (result'.2.filter fun y => cmp' result'.1 y ≠ .lt) :=
      List.rel_filter (fun x y hxy => by simp [hcmp _ _ hfront _ _ hxy]) hothers
    dsimp only
    generalize (result.2.filter fun x => cmp result.1 x ≠ .lt) = tied at htied ⊢
    generalize (result'.2.filter fun y => cmp' result'.1 y ≠ .lt) = tied' at htied ⊢
    cases htied with
    | nil => exact .some (.unique hfront)
    | cons h hs => exact .some (.ambiguous hfront (.cons h hs))

end

/-- A list corresponds to itself. -/
theorem forall₂_self (xs : List α) : List.Forall₂ (fun x y => x = y ∧ x ∈ xs) xs xs :=
  List.forall₂_same.2 fun _ hx => ⟨rfl, hx⟩

/-- What is selected depends only on how the elements of the list compare. -/
theorem best_congr {cmp' : α → α → Ordering} {xs : List α}
    (h : ∀ x ∈ xs, ∀ y ∈ xs, cmp x y = cmp' x y) : best cmp xs = best cmp' xs := by
  have hrel : Option.Rel _ (best cmp xs) (best cmp' xs) :=
    best_rel (fun a b hab a' b' hab' => hab.1 ▸ hab'.1 ▸ h a hab.2 a' hab'.2) (forall₂_self xs)
  generalize best cmp xs = s, best cmp' xs = s' at hrel
  cases hrel with
  | none => rfl
  | some hs =>
    cases hs with
    | unique ha => rw [ha.1]
    | ambiguous ha has =>
      have heq : List.Forall₂ Eq _ _ := has.imp fun _ _ h => h.1
      rw [List.forall₂_eq_eq_eq] at heq
      rw [ha.1, heq]

theorem mem_of_best_eq_some {s : Selection α} (h : best cmp xs = some s) :
    ∀ x ∈ s.toList, x ∈ xs := by
  have hrel : Option.Rel _ (best cmp xs) (best cmp xs) :=
    best_rel (fun _ _ hab _ _ hab' => by rw [hab.1, hab'.1]) (forall₂_self xs)
  rw [h] at hrel
  obtain ⟨hs⟩ := hrel
  cases hs with
  | unique ha => exact List.forall_mem_singleton.2 ha.2
  | ambiguous ha has =>
    exact List.forall_mem_cons.2 ⟨ha.2, fun x hx => (List.forall₂_same.1 has x hx).2⟩

end Selection

namespace Registry

variable {r : Registry}

/-! ## Ranking -/

theorem subsumes_asymm {a b : Key} (h : r.subsumes a b = true) : r.subsumes b a = false := by
  have hlt : (r.requirements b).length < (r.requirements a).length := by
    simp only [subsumes, Bool.and_eq_true, decide_eq_true_eq] at h
    exact h.1
  simp only [subsumes, Bool.and_eq_false_iff, decide_eq_false_iff_not]
  exact Or.inl (by omega)

theorem compareConstraints_swap (a b : Option Key) :
    r.compareConstraints b a = (r.compareConstraints a b).swap := by
  cases a with
  | none => cases b <;> rfl
  | some a =>
    cases b with
    | none => rfl
    | some b =>
      simp only [compareConstraints]
      by_cases hab : r.subsumes a b = true
      · simp [hab, subsumes_asymm hab]
      · by_cases hba : r.subsumes b a = true
        · simp [hab, hba]
        · simp [hab, hba]

theorem compareArgs_swap (a b : Match) : compareArgs b a = (compareArgs a b).swap := by
  rw [compareArgs, compareArgs, Ordering.swap_then, Nat.compare_swap, Nat.compare_swap]

/-- **The ranking of candidates of one tier is antisymmetric.** -/
theorem compareCandidates_swap {a b : Candidate} (receiver : DataType) (h : a.tier = b.tier) :
    r.compareCandidates receiver b a = (r.compareCandidates receiver a b).swap := by
  rw [compareCandidates, compareCandidates, Ordering.swap_then, ← compareArgs_swap, ← h]
  cases a.tier with
  | member =>
    cases receiver.isConst with
    | true => rfl
    | false => cases a.callable.isConst <;> cases b.callable.isConst <;> rfl
  | extension =>
    simp only [Ordering.swap_then, ← compareConstraints_swap, Nat.compare_swap]

theorem compareCandidates_antisymmetric {cs : List Candidate} {tier : Tier}
    (receiver : DataType) (h : ∀ c ∈ cs, c.tier = tier) :
    Selection.Antisymmetric (r.compareCandidates receiver) cs :=
  fun a ha b hb => compareCandidates_swap receiver ((h a ha).trans (h b hb).symm)

theorem selectBest_eq_none_iff {cs : List Candidate} (receiver : DataType) :
    r.selectBest receiver cs = none ↔ cs = [] :=
  Selection.best_eq_none_iff

/-- What is selected among the candidates of one tier. -/
theorem selectBest_eq_unique_iff {cs : List Candidate} {tier : Tier} {receiver : DataType}
    {c : Candidate} (h : ∀ c ∈ cs, c.tier = tier) :
    r.selectBest receiver cs = some (.unique c) ↔
      Selection.Dominates (r.compareCandidates receiver) cs c :=
  Selection.best_eq_unique_iff (compareCandidates_antisymmetric receiver h)

theorem selectBest_eq_ambiguous_iff {cs : List Candidate} {tier : Tier} {receiver : DataType}
    (h : ∀ c ∈ cs, c.tier = tier) :
    (∃ front tied, r.selectBest receiver cs = some (.ambiguous front tied)) ↔
      cs ≠ [] ∧ ¬ ∃ c, Selection.Dominates (r.compareCandidates receiver) cs c :=
  Selection.best_eq_ambiguous_iff (compareCandidates_antisymmetric receiver h)

end Registry

end MethodResolution
