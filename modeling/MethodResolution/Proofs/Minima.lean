/-
  Method resolution — the minimal elements of a list.

  An element of a list is minimal if none compares strictly better.  Which ones
  are does not depend on the order of the list (`minima_perm`).

  * `perm_of_best_eq_ambiguous`: a tie is the front-runner and all that it does
    not beat, so no minimal element is left out (`Unbeaten.mem_of_tie`);
  * `best_eq_ofList_minima`: where comparing no worse is transitive, the minimal
    elements alone are selected, in the order of the list;
  * `Transitive.then`: it is transitive if a second comparison decides where a
    first one does not, and it is for both.
-/
import MethodResolution.Proofs.Domination
import Mathlib.Order.Defs.LinearOrder

namespace MethodResolution

namespace Selection

variable {α : Type} {cmp : α → α → Ordering} {xs ys : List α} {x y z : α}

/-! ## Comparisons without circles -/

/-- On the list, comparing no worse is transitive. -/
def Transitive (cmp : α → α → Ordering) (xs : List α) : Prop :=
  ∀ x ∈ xs, ∀ y ∈ xs, ∀ z ∈ xs, cmp x y ≠ .gt → cmp y z ≠ .gt → cmp x z ≠ .gt

theorem Transitive.perm (htrans : Transitive cmp xs) (h : xs.Perm ys) : Transitive cmp ys :=
  fun x hx y hy z hz =>
    htrans x (h.mem_iff.2 hx) y (h.mem_iff.2 hy) z (h.mem_iff.2 hz)

/-- To compare by a key is transitive. -/
theorem transitive_compare {β : Type} [LinearOrder β] (f : α → β) :
    Transitive (fun x y => compare (f x) (f y)) xs := by
  intro x _ y _ z _ hxy hyz
  rw [compare_le_iff_le] at hxy hyz ⊢
  exact le_trans hxy hyz

section
variable (hanti : Antisymmetric cmp xs) (htrans : Transitive cmp xs)
include hanti htrans

/-- To be strictly better than something is to be strictly better than all that
    this is no worse than, -/
theorem Transitive.lt_of_lt_of_le (hx : x ∈ xs) (hy : y ∈ xs) (hz : z ∈ xs)
    (hxy : cmp x y = .lt) (hyz : cmp y z ≠ .gt) : cmp x z = .lt := by
  by_contra hxz
  have hzx : cmp z x ≠ .gt := by
    rw [hanti x hx z hz]
    cases h : cmp x z <;> simp_all
  refine htrans y hy z hz x hx hyz hzx ?_
  rw [hanti x hx y hy, hxy]
  rfl

/-- and so it is to be no worse than something that is strictly better. -/
theorem Transitive.lt_of_le_of_lt (hx : x ∈ xs) (hy : y ∈ xs) (hz : z ∈ xs)
    (hxy : cmp x y ≠ .gt) (hyz : cmp y z = .lt) : cmp x z = .lt := by
  by_contra hxz
  have hzx : cmp z x ≠ .gt := by
    rw [hanti x hx z hz]
    cases h : cmp x z <;> simp_all
  refine htrans z hz x hx y hy hzx hxy ?_
  rw [hanti y hy z hz, hyz]
  rfl

/-- **Of two transitive comparisons, the second one may decide where the first
    one does not.** -/
theorem Transitive.then {cmp' : α → α → Ordering} (htrans' : Transitive cmp' xs) :
    Transitive (fun x y => (cmp x y).then (cmp' x y)) xs := by
  intro x hx y hy z hz hxy hyz
  have hle : ∀ {a b : α}, (cmp a b).then (cmp' a b) ≠ .gt →
      cmp a b = .lt ∨ cmp a b = .eq ∧ cmp' a b ≠ .gt := by
    intro a b hab
    cases hcmp : cmp a b <;> simp_all
  dsimp only
  rcases hle hxy with hlt | ⟨heq, hxy'⟩
  · have hyz' : cmp y z ≠ .gt := by rcases hle hyz with h | ⟨h, -⟩ <;> simp [h]
    simp [htrans.lt_of_lt_of_le hanti hx hy hz hlt hyz']
  · rcases hle hyz with hlt | ⟨heq', hyz'⟩
    · simp [htrans.lt_of_le_of_lt hanti hx hy hz (by simp [heq]) hlt]
    · have hxz : cmp x z ≠ .gt := htrans x hx y hy z hz (by simp [heq]) (by simp [heq'])
      have hxz' : cmp' x z ≠ .gt := htrans' x hx y hy z hz hxy' hyz'
      cases hcmp : cmp x z <;> simp_all

end

/-! ## Minimal elements -/

/-- No element of the list compares strictly better than `x`. -/
def Unbeaten (cmp : α → α → Ordering) (xs : List α) (x : α) : Prop := ∀ y ∈ xs, cmp y x ≠ .lt

instance : DecidablePred (Unbeaten cmp xs) :=
  fun x => inferInstanceAs (Decidable (∀ y ∈ xs, cmp y x ≠ .lt))

/-- The minimal elements of a list, in its order. -/
def minima (cmp : α → α → Ordering) (xs : List α) : List α := xs.filter (Unbeaten cmp xs)

theorem mem_minima : x ∈ minima cmp xs ↔ x ∈ xs ∧ Unbeaten cmp xs x := by
  simp [minima]

theorem unbeaten_iff_of_perm (h : xs.Perm ys) : Unbeaten cmp xs x ↔ Unbeaten cmp ys x :=
  forall_congr' fun _ => imp_congr_left h.mem_iff

/-- **Which elements are minimal does not depend on the order.** -/
theorem minima_perm (h : xs.Perm ys) : (minima cmp xs).Perm (minima cmp ys) := by
  have hsame : minima cmp ys = ys.filter (Unbeaten cmp xs) :=
    List.filter_congr fun x _ => decide_eq_decide.2 (unbeaten_iff_of_perm h.symm)
  rw [hsame]
  exact h.filter _

/-! ## Selections as lists -/

/-- The selection that lists the given elements, the front-runner first. -/
def ofList : List α → Option (Selection α)
  | [] => none
  | [x] => some (.unique x)
  | x :: tied => some (.ambiguous x tied)

theorem toList_of_ofList {s : Selection α} (h : ofList xs = some s) : s.toList = xs := by
  rcases xs with _ | ⟨x, _ | ⟨y, xs⟩⟩
  · cases h
  · cases h
    rfl
  · cases h
    rfl

theorem ofList_eq_unique_iff : ofList xs = some (.unique x) ↔ xs = [x] := by
  rcases xs with _ | ⟨y, _ | ⟨z, xs⟩⟩
  · simp [ofList]
  · simp [ofList]
  · simp [ofList]

theorem ofList_eq_ambiguous_iff {tied : List α} :
    ofList xs = some (.ambiguous x tied) ↔ xs = x :: tied ∧ tied ≠ [] := by
  rcases xs with _ | ⟨y, _ | ⟨z, xs⟩⟩
  · simp [ofList]
  · simp +contextual [ofList, eq_comm]
  · simp only [ofList, Option.some.injEq, ambiguous.injEq, List.cons.injEq]
    constructor
    · rintro ⟨rfl, rfl⟩
      exact ⟨⟨rfl, rfl⟩, List.cons_ne_nil _ _⟩
    · exact And.left

theorem best_eq_ofList {front : α} {others : List α} (h : lead cmp xs = some (front, others)) :
    best cmp xs = ofList (front :: others.filter fun y => cmp front y ≠ .lt) := by
  rw [best, h, Option.map_some]
  dsimp only
  generalize others.filter (fun y => cmp front y ≠ .lt) = tied
  cases tied with
  | nil => rfl
  | cons y tied => rfl

/-! ## Ties -/

/-- **A tie is the front-runner and all that it does not beat.** -/
theorem perm_of_best_eq_ambiguous {front : α} {tied : List α}
    (h : best cmp xs = some (.ambiguous front tied)) :
    tied ≠ [] ∧ (∀ y ∈ tied, cmp front y ≠ .lt) ∧
      ∃ left, xs.Perm (front :: tied ++ left) ∧ ∀ y ∈ left, cmp front y = .lt := by
  cases xs with
  | nil => cases h
  | cons z rest =>
    obtain ⟨others, hlead, hperm⟩ := lead_cons cmp z rest
    rw [best_eq_ofList hlead, ofList_eq_ambiguous_iff] at h
    obtain ⟨hcons, hne⟩ := h
    obtain ⟨hfront, htied⟩ := List.cons.inj hcons
    rw [hfront] at hperm htied
    refine ⟨hne, fun y hy => ?_, others.filter fun y => cmp front y = .lt, ?_, fun y hy => ?_⟩
    · rw [← htied] at hy
      simpa using (List.mem_filter.1 hy).2
    · have hsplit := List.filter_append_perm (fun y => decide (cmp front y ≠ .lt)) others
      rw [htied] at hsplit
      simpa using hperm.trans (hsplit.symm.cons front)
    · simpa using (List.mem_filter.1 hy).2

/-- No minimal element is left out of a tie. -/
theorem Unbeaten.mem_of_tie {front : α} {tied : List α} (hx : Unbeaten cmp xs x)
    (hmem : x ∈ xs) (h : best cmp xs = some (.ambiguous front tied)) : x ∈ front :: tied := by
  obtain ⟨-, -, left, hperm, hleft⟩ := perm_of_best_eq_ambiguous h
  rcases List.mem_append.1 (hperm.mem_iff.1 hmem) with hx' | hx'
  · exact hx'
  · exact absurd (hleft x hx') (hx front (hperm.mem_iff.2 (by simp)))

/-- Elements of which none is better than another are a tie. -/
theorem best_of_tied (htied : ∀ x ∈ xs, ∀ y ∈ xs, cmp x y ≠ .lt) (hlength : 1 < xs.length) :
    ∃ front tied, best cmp xs = some (.ambiguous front tied) ∧ (front :: tied).Perm xs := by
  cases xs with
  | nil => cases hlength
  | cons z rest =>
    obtain ⟨others, hlead, hperm⟩ := lead_cons cmp z rest
    have hmem : ∀ y ∈ leader cmp z rest :: others, y ∈ z :: rest := fun _ => hperm.mem_iff.2
    have hall : (others.filter fun y => cmp (leader cmp z rest) y ≠ .lt) = others :=
      List.filter_eq_self.2 fun y hy => decide_eq_true
        (htied _ (hmem _ List.mem_cons_self) y (hmem y (List.mem_cons_of_mem _ hy)))
    have hothers : others ≠ [] := by
      rintro rfl
      rw [hperm.length_eq] at hlength
      exact Nat.lt_irrefl _ hlength
    refine ⟨leader cmp z rest, others, ?_, hperm.symm⟩
    rw [best_eq_ofList hlead, hall, ofList_eq_ambiguous_iff]
    exact ⟨rfl, hothers⟩

/-! ## Selection on a transitive comparison -/

section
variable {all before after rest : List α} {front : α} (hanti : Antisymmetric cmp all)
  (htrans : Transitive cmp all)
include hanti htrans

/-- What a scan has seen before the front-runner is beaten by it, and nothing
    that it has seen since beats it. -/
theorem scan_spec (hall : all = before ++ front :: after ++ rest)
    (hbefore : ∀ y ∈ before, cmp front y = .lt) (hafter : ∀ y ∈ after, cmp y front ≠ .lt) :
    ∃ before' front' after', scan cmp before front after rest = (front', before' ++ after') ∧
      all = before' ++ front' :: after' ∧ (∀ y ∈ before', cmp front' y = .lt) ∧
      ∀ y ∈ after', cmp y front' ≠ .lt := by
  induction rest generalizing before front after with
  | nil => exact ⟨before, front, after, rfl, by simpa using hall, hbefore, hafter⟩
  | cons x rest ih =>
    have hx : x ∈ all := by simp [hall]
    have hfront : front ∈ all := by simp [hall]
    rw [scan]
    split_ifs with hlt
    · -- What the front-runner is no worse than, the new one beats.
      have hbeats : ∀ y ∈ all, cmp front y ≠ .gt → cmp x y = .lt := fun y hy =>
        htrans.lt_of_lt_of_le hanti hx hfront hy hlt
      refine ih (by simpa using hall) (fun y hy => ?_) (fun y hy => absurd hy List.not_mem_nil)
      have hmem : y ∈ all := hall ▸ List.mem_append_left _ hy
      rcases List.mem_append.1 hy with hy | hy
      · exact hbeats y hmem (by simp [hbefore y hy])
      · rcases List.mem_cons.1 hy with rfl | hy
        · exact hlt
        · refine hbeats y hmem ?_
          rw [hanti y hmem front hfront]
          simpa using hafter y hy
    · refine ih (by simpa using hall) hbefore (fun y hy => ?_)
      rcases List.mem_append.1 hy with hy | hy
      · exact hafter y hy
      · exact List.mem_singleton.1 hy ▸ hlt

/-- The minimal elements are those which a front-runner like this does not
    beat. -/
theorem minima_eq (hall : all = before ++ front :: after)
    (hbefore : ∀ y ∈ before, cmp front y = .lt) (hafter : ∀ y ∈ after, cmp y front ≠ .lt) :
    minima cmp all = front :: (before ++ after).filter fun y => cmp front y ≠ .lt := by
  have hfront : front ∈ all := by simp [hall]
  have hmin : Unbeaten cmp all front := by
    intro y hy
    rw [hall, List.mem_append, List.mem_cons] at hy
    rcases hy with hy | rfl | hy
    · rw [hanti front hfront y (by simp [hall, hy]), hbefore y hy]
      decide
    · have hself : cmp y y = (cmp y y).swap := hanti y hfront y hfront
      cases hcmp : cmp y y <;> simp_all
    · exact hafter y hy
  have hnone : ∀ y ∈ before, ¬ Unbeaten cmp all y := fun y hy hno =>
    hno front hfront (hbefore y hy)
  have hlater : ∀ y ∈ after, Unbeaten cmp all y ↔ cmp front y ≠ .lt := by
    intro y hy
    have hmem : y ∈ all := by simp [hall, hy]
    refine ⟨fun hno => hno front hfront, fun hnot x hx hlt => hmin x hx ?_⟩
    refine htrans.lt_of_lt_of_le hanti hx hmem hfront hlt ?_
    rw [hanti front hfront y hmem]
    simpa using hnot
  have hnil : before.filter (Unbeaten cmp all) = [] :=
    List.filter_eq_nil_iff.2 fun y hy => by simpa using hnone y hy
  have hnil' : (before.filter fun y => cmp front y ≠ .lt) = [] :=
    List.filter_eq_nil_iff.2 fun y hy => by simp [hbefore y hy]
  have hsame : after.filter (Unbeaten cmp all) = after.filter fun y => cmp front y ≠ .lt :=
    List.filter_congr fun y hy => by simp [hlater y hy]
  calc minima cmp all = (before ++ front :: after).filter (Unbeaten cmp all) := by
        rw [minima, ← hall]
    _ = front :: after.filter (Unbeaten cmp all) := by
        rw [List.filter_append, hnil, List.filter_cons_of_pos (by simpa using hmin),
          List.nil_append]
    _ = front :: (before ++ after).filter fun y => cmp front y ≠ .lt := by
        rw [List.filter_append, hnil', List.nil_append, hsame]

/-- **On a transitive comparison, the minimal elements are selected**, in the
    order of the list. -/
theorem best_eq_ofList_minima : best cmp all = ofList (minima cmp all) := by
  cases all with
  | nil => rfl
  | cons z rest =>
    have hstart : z :: rest = [] ++ z :: [] ++ rest := rfl
    obtain ⟨before, front, after, hscan, hall, hbefore, hafter⟩ :=
      scan_spec hanti htrans hstart (fun y hy => absurd hy List.not_mem_nil)
        (fun y hy => absurd hy List.not_mem_nil)
    rw [minima_eq hanti htrans hall hbefore hafter]
    exact best_eq_ofList (by rw [lead, hscan])

end

end Selection

end MethodResolution
