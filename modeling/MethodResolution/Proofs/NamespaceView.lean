/-
  Method resolution — the namespace tree, without its numbers.

  Scopes are numbered in the order of their creation.  What a tree says about
  paths does not depend on the numbers: which paths exist, what is declared
  under a path, and which path imports which (`View`).

  * `WellFormed`: every scope lies at the end of exactly one path.  This holds
    of the empty tree and stays so as the tree grows;
  * `created_pathOrNew`: a path that is created is added to the view, with the
    paths around it, and changes nothing else.
-/
import MethodResolution.Namespace
import Mathlib.Data.List.Infix
import Mathlib.Tactic.Common

namespace MethodResolution

namespace NamespaceTree

variable {t : NamespaceTree}

/-! ## Paths -/

theorem child?_lt {node child : Nat} {name : String} (h : t.child? node name = some child) :
    child < t.size := by
  rw [child?, List.findIdx?_eq_some_iff_getElem] at h
  exact h.1

theorem pathFrom?_append (node : Nat) (p q : List String) :
    t.pathFrom? node (p ++ q) = (t.pathFrom? node p).bind fun n => t.pathFrom? n q := by
  induction p generalizing node with
  | nil => rfl
  | cons name p ih =>
    rw [List.cons_append, pathFrom?, pathFrom?, Option.bind_assoc]
    simp only [ih]

theorem path?_concat (p : List String) (x : String) :
    t.path? (p ++ [x]) = (t.path? p).bind (t.child? · x) := by
  rw [path?, pathFrom?_append, path?]
  simp [pathFrom?]

theorem path?_lt (hsize : 0 < t.size) {p : List String} {n : Nat} (h : t.path? p = some n) :
    n < t.size := by
  induction p using List.reverseRecOn with
  | nil =>
    cases h
    exact hsize
  | append_singleton p x _ =>
    rw [path?_concat] at h
    obtain ⟨m, -, hchild⟩ := Option.bind_eq_some_iff.1 h
    exact child?_lt hchild

/-- Every scope lies at the end of exactly one path, and no scope mentions one
    that does not exist. -/
structure WellFormed (t : NamespaceTree) : Prop where
  size_pos : 0 < t.size
  parent_lt : ∀ s ∈ t.scopes, ∀ m ∈ s.parent, m < t.size
  import_lt : ∀ s ∈ t.scopes, ∀ m ∈ s.imports, m < t.size
  path_of_lt : ∀ n < t.size, ∃ p, t.path? p = some n
  path_inj : ∀ p q n, t.path? p = some n → t.path? q = some n → p = q

theorem wellFormed_empty : empty.WellFormed where
  size_pos := Nat.one_pos
  parent_lt s hs m hm := by
    rw [List.mem_singleton.1 hs] at hm
    cases hm
  import_lt s hs m hm := by
    rw [List.mem_singleton.1 hs] at hm
    cases hm
  path_of_lt n hn := by
    have hzero : n = 0 := Nat.lt_one_iff.1 hn
    exact ⟨[], by rw [hzero]; rfl⟩
  path_inj p q n hp hq := by
    have hnil : ∀ p n, empty.path? p = some n → p = [] := by
      intro p n h
      cases p with
      | nil => rfl
      | cons x p => cases h
    rw [hnil p n hp, hnil q n hq]

/-- Nothing lies inside a scope that does not exist. -/
theorem WellFormed.child?_size (h : t.WellFormed) (x : String) : t.child? t.size x = none := by
  rw [child?, List.findIdx?_eq_none_iff]
  intro s hs
  have hne : s.parent ≠ some t.size := fun hp => Nat.lt_irrefl _ (h.parent_lt s hs _ hp)
  simp [hne]

theorem getElem?_size : t.scopes[t.size]? = none := List.getElem?_eq_none (Nat.le_refl _)

theorem overloadsIn_size (x : String) : t.overloadsIn t.size x = [] := by
  rw [overloadsIn, getElem?_size]
  rfl

theorem importsOf_size : t.importsOf t.size = [] := by
  rw [importsOf, getElem?_size]
  rfl

theorem importsOf_lt (h : t.WellFormed) {n m : Nat} (hm : m ∈ t.importsOf n) : m < t.size := by
  rw [importsOf] at hm
  cases hs : t.scopes[n]? with
  | none =>
    rw [hs] at hm
    cases hm
  | some s =>
    rw [hs] at hm
    exact h.import_lt s (List.mem_of_getElem? hs) m hm

/-! ## The view of a tree -/

/-- What a tree says about paths. -/
@[ext]
structure View where
  /-- Which namespaces exist. -/
  has : List String → Prop
  /-- What is declared in a namespace under a simple name. -/
  declares : List String → String → Key → Prop
  /-- Which namespace imports which. -/
  imports : List String → List String → Prop

namespace View

/-- The view with one more namespace and those around it. -/
def create (v : View) (path : List String) : View where
  has p := v.has p ∨ p <+: path
  declares := v.declares
  imports := v.imports

/-- The view with one more function. -/
def declare (v : View) (path : List String) (name : String) (key : Key) : View where
  has := (v.create path).has
  declares p x k := v.declares p x k ∨ p = path ∧ x = name ∧ k = key
  imports := v.imports

/-- The view with one more import. -/
def addImport (v : View) (path imported : List String) : View where
  has := ((v.create path).create imported).has
  declares := v.declares
  imports p q := v.imports p q ∨ p = path ∧ q = imported

end View

/-- The view of a tree. -/
def view (t : NamespaceTree) : View where
  has p := ∃ n, t.path? p = some n
  declares p name key := ∃ n, t.path? p = some n ∧ key ∈ t.overloadsIn n name
  imports p q := ∃ n m, t.path? p = some n ∧ t.path? q = some m ∧ m ∈ t.importsOf n

theorem has_of_prefix {p q : List String} (h : p <+: q) (hq : t.view.has q) : t.view.has p := by
  obtain ⟨rest, rfl⟩ := h
  obtain ⟨n, hn⟩ := hq
  rw [path?, pathFrom?_append] at hn
  obtain ⟨m, hm, -⟩ := Option.bind_eq_some_iff.1 hn
  exact ⟨m, hm⟩

theorem create_of_has {p : List String} (h : t.view.has p) : t.view.create p = t.view := by
  ext q x k
  · exact or_iff_left_of_imp fun hq => has_of_prefix hq h
  · rfl
  · rfl

/-! ## One more scope -/

/-- The tree with a new scope called `name` inside `node`. -/
def withChild (t : NamespaceTree) (node : Nat) (name : String) : NamespaceTree :=
  ⟨t.scopes ++ [{ parent := some node, name := name }]⟩

section
variable {node : Nat} {name : String}

theorem size_withChild : (t.withChild node name).size = t.size + 1 := by
  simp [size, withChild]

theorem child?_withChild (m : Nat) (x : String) :
    (t.withChild node name).child? m x =
      (t.child? m x).or (if m = node ∧ x = name then some t.size else none) := by
  rw [child?, withChild, List.findIdx?_append, child?]
  congr 1
  by_cases h : m = node ∧ x = name
  · obtain ⟨rfl, rfl⟩ := h
    simp [size]
  · have hne : ¬ (node = m ∧ name = x) := fun ⟨hm, hx⟩ => h ⟨hm.symm, hx.symm⟩
    simp [h, hne]

/-- Where nothing is read of the new scope, all is read as before. -/
theorem elim_withChild {β : Type} {read : Scope → β} {nothing : β}
    (h : read { parent := some node, name := name } = nothing) (n : Nat) :
    (t.withChild node name).scopes[n]?.elim nothing read = t.scopes[n]?.elim nothing read := by
  rw [withChild, List.getElem?_append]
  split_ifs with hn
  · rfl
  · rw [List.getElem?_eq_none (Nat.le_of_not_lt hn)]
    cases n - t.scopes.length with
    | zero => exact h
    | succ _ => rfl

theorem overloadsIn_withChild (n : Nat) (x : String) :
    (t.withChild node name).overloadsIn n x = t.overloadsIn n x := by
  unfold overloadsIn
  exact elim_withChild (by rfl) n

theorem importsOf_withChild (n : Nat) :
    (t.withChild node name).importsOf n = t.importsOf n := by
  unfold importsOf
  exact elim_withChild (by rfl) n

variable {p : List String} (h : t.WellFormed) (hnode : t.path? p = some node)
  (hnew : t.child? node name = none)
include h hnode hnew

/-- **One more scope is one more path**; all others lead where they led. -/
theorem path?_withChild (q : List String) :
    (t.withChild node name).path? q = if q = p ++ [name] then some t.size else t.path? q := by
  have hmissing : t.path? (p ++ [name]) = none := by rw [path?_concat, hnode]; exact hnew
  induction q using List.reverseRecOn with
  | nil => simp [path?, pathFrom?]
  | append_singleton q x ih =>
    rw [path?_concat, ih, path?_concat]
    split_ifs with hq hqx hqx
    · -- The new scope holds nothing yet.
      obtain ⟨hqp, -⟩ := List.append_inj' hqx rfl
      simp [hqp] at hq
    · have hnode_lt := path?_lt h.size_pos hnode
      rw [hq, hmissing, Option.bind_some, child?_withChild, h.child?_size]
      simp [Nat.ne_of_gt hnode_lt]
    · obtain ⟨rfl, hx⟩ := List.append_inj' hqx rfl
      cases hx
      rw [hnode, Option.bind_some, child?_withChild, hnew]
      simp
    · cases hm : t.path? q with
      | none => rfl
      | some m =>
        have hother : ¬ (m = node ∧ x = name) := by
          rintro ⟨rfl, rfl⟩
          exact hqx (by rw [h.path_inj q p m hm hnode])
        rw [Option.bind_some, Option.bind_some, child?_withChild, if_neg hother, Option.or_none]

theorem wellFormed_withChild : (t.withChild node name).WellFormed where
  size_pos := by
    rw [size_withChild]
    omega
  parent_lt s hs m hm := by
    rw [size_withChild]
    rcases List.mem_append.1 hs with hs | hs
    · exact Nat.lt_succ_of_lt (h.parent_lt s hs m hm)
    · rw [List.mem_singleton.1 hs] at hm
      cases hm
      exact Nat.lt_succ_of_lt (path?_lt h.size_pos hnode)
  import_lt s hs m hm := by
    rw [size_withChild]
    rcases List.mem_append.1 hs with hs | hs
    · exact Nat.lt_succ_of_lt (h.import_lt s hs m hm)
    · rw [List.mem_singleton.1 hs] at hm
      cases hm
  path_of_lt n hn := by
    rw [size_withChild] at hn
    by_cases hlast : n = t.size
    · exact ⟨p ++ [name], by rw [path?_withChild h hnode hnew, if_pos rfl, hlast]⟩
    · obtain ⟨q, hq⟩ := h.path_of_lt n (by omega)
      refine ⟨q, ?_⟩
      rw [path?_withChild h hnode hnew, if_neg, hq]
      rintro rfl
      rw [path?_concat, hnode, Option.bind_some, hnew] at hq
      cases hq
  path_inj q q' n hq hq' := by
    rw [path?_withChild h hnode hnew] at hq hq'
    split_ifs at hq hq' with hnewq hnewq' hnewq'
    · rw [hnewq, hnewq']
    · cases hq
      exact absurd (path?_lt h.size_pos hq') (Nat.lt_irrefl _)
    · cases hq'
      exact absurd (path?_lt h.size_pos hq) (Nat.lt_irrefl _)
    · exact h.path_inj q q' n hq hq'

/-- A new scope declares nothing and imports nothing. -/
theorem view_withChild :
    (t.withChild node name).view =
      { t.view with has := fun q => t.view.has q ∨ q = p ++ [name] } := by
  have hmissing : ∀ n, t.path? (p ++ [name]) ≠ some n := by
    intro n hn
    rw [path?_concat, hnode, Option.bind_some, hnew] at hn
    cases hn
  ext q x k
  · simp only [view, path?_withChild h hnode hnew]
    split_ifs with hq
    · simp [hq]
    · simp [hq]
  · simp only [view, path?_withChild h hnode hnew, overloadsIn_withChild]
    split_ifs with hq
    · simp [hq, hmissing, overloadsIn_size]
    · rfl
  · simp only [view, path?_withChild h hnode hnew, importsOf_withChild]
    constructor
    · rintro ⟨n, m, hn, hm, hmem⟩
      split_ifs at hn hm with hq hx hx
      · cases hn
        simp [importsOf_size] at hmem
      · cases hn
        simp [importsOf_size] at hmem
      · cases hm
        exact absurd (importsOf_lt h hmem) (Nat.lt_irrefl _)
      · exact ⟨n, m, hn, hm, hmem⟩
    · rintro ⟨n, m, hn, hm, hmem⟩
      refine ⟨n, m, ?_, ?_, hmem⟩
      · rw [if_neg, hn]
        rintro rfl
        exact hmissing n hn
      · rw [if_neg, hm]
        rintro rfl
        exact hmissing m hm

end

/-! ## Whole paths -/

/-- The number `out.1` is the scope of `path` in the tree `out.2`, which has
    this path and is otherwise as `t` is. -/
structure Created (t : NamespaceTree) (path : List String) (out : Nat × NamespaceTree) : Prop where
  wellFormed : out.2.WellFormed
  path?_eq : out.2.path? path = some out.1
  path?_mono : ∀ p n, t.path? p = some n → out.2.path? p = some n
  view_eq : out.2.view = t.view.create path

theorem created_pathOrNewFrom {node : Nat} {p : List String} (rest : List String)
    (h : t.WellFormed) (hnode : t.path? p = some node) :
    t.Created (p ++ rest) (t.pathOrNewFrom node rest) := by
  induction rest generalizing t node p with
  | nil =>
    rw [List.append_nil]
    exact ⟨h, hnode, fun _ _ hq => hq, (create_of_has ⟨node, hnode⟩).symm⟩
  | cons name rest ih =>
    have hassoc : p ++ name :: rest = (p ++ [name]) ++ rest := by simp
    rw [pathOrNewFrom, childOrNew, hassoc]
    cases hchild : t.child? node name with
    | some child =>
      refine ih h ?_
      rw [path?_concat, hnode, Option.bind_some, hchild]
    | none =>
      dsimp only
      rw [if_pos (Nat.le_of_lt (path?_lt h.size_pos hnode))]
      have hgrown : (t.withChild node name).Created (p ++ [name] ++ rest)
          ((t.withChild node name).pathOrNewFrom t.size rest) :=
        ih (wellFormed_withChild h hnode hchild)
          (by rw [path?_withChild h hnode hchild, if_pos rfl])
      show t.Created (p ++ [name] ++ rest) ((t.withChild node name).pathOrNewFrom t.size rest)
      refine ⟨hgrown.wellFormed, hgrown.path?_eq, fun q n hq => ?_, ?_⟩
      · refine hgrown.path?_mono q n ?_
        rw [path?_withChild h hnode hchild, if_neg, hq]
        rintro rfl
        rw [path?_concat, hnode, Option.bind_some, hchild] at hq
        cases hq
      · rw [hgrown.view_eq, view_withChild h hnode hchild]
        ext q x k
        · have hprefix : q = p ++ [name] → q <+: p ++ [name] ++ rest := by
            rintro rfl
            exact List.prefix_append _ _
          simp only [View.create, or_assoc, or_iff_right_of_imp hprefix]
        · rfl
        · rfl

/-- **A path is created as far as it is missing.** -/
theorem created_pathOrNew (h : t.WellFormed) (path : List String) :
    t.Created path (t.pathOrNew path) :=
  created_pathOrNewFrom path h (p := []) rfl

end NamespaceTree

end MethodResolution
