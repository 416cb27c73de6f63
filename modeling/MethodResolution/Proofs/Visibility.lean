/-
  Method resolution — what can be seen from a namespace.

  * `mem_explore`: exploring lists what can be reached, although it takes every
    node at most once and in an order that depends on the successor lists;
  * `View.Sees`: a function can be seen from a path if it is declared where
    imports lead to from a namespace around the path;
  * `mem_visible`: these are the functions that lookup finds in a well-formed
    tree.  So trees of one view find the same functions, each once, in some
    order (`visible_perm`).
-/
import MethodResolution.Proofs.NamespaceView
import Mathlib.Logic.Relation

namespace MethodResolution

namespace NamespaceTree

open Relation (ReflTransGen)

/-! ## Exploring -/

section
variable {next : Nat → List Nat}

/-- A step along `next` to one of the given nodes. -/
def Step (next : Nat → List Nat) (nodes : List Nat) (a b : Nat) : Prop := b ∈ next a ∧ b ∈ nodes

/-- What can be reached among the nodes, from a start that is one of them. -/
def Reached (next : Nat → List Nat) (nodes starts : List Nat) (n : Nat) : Prop :=
  ∃ m ∈ starts, m ∈ nodes ∧ ReflTransGen (Step next nodes) m n

/-- The first node of a search may be taken out, if its successors are added to
    the starts: what is reached otherwise is reached after the last visit of
    this node. -/
theorem reached_iff_of_mem {nodes starts : List Nat} {node : Nat} (hstart : node ∈ starts)
    (hnode : node ∈ nodes) (n : Nat) :
    Reached next nodes starts n ↔
      n = node ∨ Reached next (nodes.erase node) (next node ++ starts) n := by
  constructor
  · rintro ⟨m, hm, hmem, hpath⟩
    induction hpath with
    | refl =>
      by_cases hne : m = node
      · exact Or.inl hne
      · exact Or.inr ⟨m, List.mem_append_right _ hm, (List.mem_erase_of_ne hne).2 hmem, .refl⟩
    | @tail b c _ hstep ih =>
      by_cases hne : c = node
      · exact Or.inl hne
      · have hc : c ∈ nodes.erase node := (List.mem_erase_of_ne hne).2 hstep.2
        rcases ih with rfl | ⟨s, hs, hsmem, hpath⟩
        · exact Or.inr ⟨c, List.mem_append_left _ hstep.1, hc, .refl⟩
        · exact Or.inr ⟨s, hs, hsmem, hpath.tail ⟨hstep.1, hc⟩⟩
  · rintro (rfl | ⟨m, hm, hmem, hpath⟩)
    · exact ⟨n, hstart, hnode, .refl⟩
    · have hpath' : ReflTransGen (Step next nodes) m n :=
        ReflTransGen.mono (fun _ _ hstep => ⟨hstep.1, List.mem_of_mem_erase hstep.2⟩) _ _ hpath
      rcases List.mem_append.1 hm with hm | hm
      · exact ⟨node, hstart, hnode, hpath'.head ⟨hm, List.mem_of_mem_erase hmem⟩⟩
      · exact ⟨m, hm, List.mem_of_mem_erase hmem, hpath'⟩

/-- **Exploring lists what can be reached**, in as many steps as there are
    nodes. -/
theorem mem_explore {steps : Nat} {remaining pending : List Nat} (h : remaining.length ≤ steps)
    (n : Nat) : n ∈ explore next steps remaining pending ↔ Reached next remaining pending n := by
  induction steps generalizing remaining pending with
  | zero =>
    have hnil : remaining = [] := List.length_eq_zero_iff.1 (Nat.le_zero.1 h)
    simp [explore, hnil, Reached]
  | succ steps ih =>
    rw [explore]
    split
    · next node hfind =>
      have hnode : node ∈ remaining := by simpa using List.find?_some hfind
      have hlength : (remaining.erase node).length ≤ steps := by
        rw [List.length_erase_of_mem hnode]
        omega
      rw [List.mem_cons, ih hlength,
        reached_iff_of_mem (List.mem_of_find?_eq_some hfind) hnode]
    · next hfind =>
      have hnone : ¬ Reached next remaining pending n := by
        rintro ⟨m, hm, hmem, -⟩
        exact absurd hmem (by simpa using List.find?_eq_none.1 hfind m hm)
      exact iff_of_false List.not_mem_nil hnone

end

/-! ## Scopes in sight -/

variable {t t' : NamespaceTree}

/-- The scopes along a path are those of its prefixes, as far as they exist. -/
theorem mem_along (node : Nat) (path : List String) (n : Nat) :
    n ∈ t.along node path ↔ ∃ p, p <+: path ∧ t.pathFrom? node p = some n := by
  induction path generalizing node with
  | nil => simp [along, pathFrom?, eq_comm]
  | cons x path ih =>
    rw [along]
    cases hchild : t.child? node x with
    | none =>
      constructor
      · intro hn
        exact ⟨[], List.nil_prefix, congrArg some (List.mem_singleton.1 hn).symm⟩
      · rintro ⟨p, hp, hn⟩
        cases p with
        | nil =>
          cases hn
          exact List.mem_singleton_self n
        | cons y p =>
          obtain ⟨rfl, -⟩ := List.cons_prefix_cons.1 hp
          rw [pathFrom?, hchild] at hn
          cases hn
    | some child =>
      rw [List.mem_cons, ih]
      constructor
      · rintro (rfl | ⟨p, hp, hn⟩)
        · exact ⟨[], List.nil_prefix, rfl⟩
        · refine ⟨x :: p, List.cons_prefix_cons.2 ⟨rfl, hp⟩, ?_⟩
          rw [pathFrom?, hchild]
          exact hn
      · rintro ⟨p, hp, hn⟩
        cases p with
        | nil =>
          cases hn
          exact Or.inl rfl
        | cons y p =>
          obtain ⟨rfl, hrest⟩ := List.cons_prefix_cons.1 hp
          rw [pathFrom?, hchild] at hn
          exact Or.inr ⟨p, hrest, hn⟩

namespace View

/-- A function can be seen from a path if imports lead from a namespace around
    it to where the function is declared. -/
def Sees (v : View) (path : List String) (name : String) (key : Key) : Prop :=
  ∃ p q, p <+: path ∧ v.has p ∧ ReflTransGen v.imports p q ∧ v.declares q name key

end View

section
variable (h : t.WellFormed)
include h

/-- Imports lead from scope to scope as they do from path to path. -/
theorem reflTransGen_step_iff {p : List String} {m n : Nat} (hm : t.path? p = some m) :
    ReflTransGen (Step t.importsOf (List.range t.size)) m n ↔
      ∃ q, t.path? q = some n ∧ ReflTransGen t.view.imports p q := by
  constructor
  · intro hpath
    induction hpath with
    | refl => exact ⟨p, hm, .refl⟩
    | @tail b c _ hstep ih =>
      obtain ⟨q, hq, hreach⟩ := ih
      obtain ⟨q', hq'⟩ := h.path_of_lt c (importsOf_lt h hstep.1)
      exact ⟨q', hq', hreach.tail ⟨b, c, hq, hq', hstep.1⟩⟩
  · rintro ⟨q, hn, hpath⟩
    induction hpath generalizing n with
    | refl =>
      rw [hm] at hn
      cases hn
      exact .refl
    | tail _ hstep ih =>
      obtain ⟨b, c, hb, hc, hmem⟩ := hstep
      rw [hc] at hn
      cases hn
      exact (ih hb).tail ⟨hmem, List.mem_range.2 (importsOf_lt h hmem)⟩

theorem mem_inSight (path : List String) (n : Nat) :
    n ∈ t.inSight path ↔
      ∃ p q, p <+: path ∧ t.view.has p ∧ ReflTransGen t.view.imports p q ∧ t.path? q = some n := by
  rw [inSight, mem_explore (by simp)]
  constructor
  · rintro ⟨m, hm, -, hpath⟩
    obtain ⟨p, hp, hpm⟩ := (mem_along root path m).1 hm
    obtain ⟨q, hq, hreach⟩ := (reflTransGen_step_iff h hpm).1 hpath
    exact ⟨p, q, hp, ⟨m, hpm⟩, hreach, hq⟩
  · rintro ⟨p, q, hp, ⟨m, hpm⟩, hreach, hq⟩
    exact ⟨m, (mem_along root path m).2 ⟨p, hp, hpm⟩,
      List.mem_range.2 (path?_lt h.size_pos hpm), (reflTransGen_step_iff h hpm).2 ⟨q, hq, hreach⟩⟩

/-- **Lookup finds the functions that can be seen.** -/
theorem mem_visible (path : List String) (name : String) (key : Key) :
    key ∈ t.visible path name ↔ t.view.Sees path name key := by
  rw [visible, List.mem_eraseDups, List.mem_flatMap]
  constructor
  · rintro ⟨n, hn, hkey⟩
    obtain ⟨p, q, hp, hhas, hreach, hq⟩ := (mem_inSight h path n).1 hn
    exact ⟨p, q, hp, hhas, hreach, n, hq, hkey⟩
  · rintro ⟨p, q, hp, hhas, hreach, n, hq, hkey⟩
    exact ⟨n, (mem_inSight h path n).2 ⟨p, q, hp, hhas, hreach, hq⟩, hkey⟩

end

theorem nodup_eraseDups {α : Type} [DecidableEq α] (l : List α) : l.eraseDups.Nodup := by
  induction hlength : l.length using Nat.strongRecOn generalizing l with
  | ind n ih =>
    cases l with
    | nil => exact List.nodup_nil
    | cons a l =>
      have hle : (l.filter fun b => !b == a).length < n := by
        rw [← hlength]
        exact Nat.lt_succ_of_le (List.length_filter_le _ l)
      rw [List.eraseDups_cons, List.nodup_cons]
      refine ⟨?_, ih _ hle _ rfl⟩
      simp [List.mem_eraseDups]

/-- **Trees of one view find the same functions**, each once. -/
theorem visible_perm (h : t.WellFormed) (h' : t'.WellFormed) (hview : t.view = t'.view)
    (path : List String) (name : String) :
    (t.visible path name).Perm (t'.visible path name) := by
  refine (List.perm_ext_iff_of_nodup (nodup_eraseDups _) (nodup_eraseDups _)).2 fun key => ?_
  show key ∈ t.visible path name ↔ key ∈ t'.visible path name
  rw [mem_visible h, mem_visible h', hview]

end NamespaceTree

end MethodResolution
