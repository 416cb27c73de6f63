/-
  Method resolution — looking up a name in a namespace tree.

  A lookup goes down the path as far as it exists, from there back up to the
  root, and then searches what it met on the way and all that is imported.  The
  two walks have no bound of their own: the one follows enclosing scopes until
  there is none, the other empties a stack onto which it puts the imports of
  every scope it visits.

  * `Growth`, `grown`: the trees that can be made at all, scope by scope, import
    by import and function by function;
  * `Rooted`: what is needed of them.  A tree need not be well formed for it: a
    scope may even lie inside itself, where no path leads;
  * `Ascends`, `Searches`: the two walks, step by step.  They end
    (`ascends_along`, `searches_explore`);
  * `looksUp_grown`: so a lookup finds the functions in the scopes to which
    imports lead from an enclosing scope, and each of them once.
-/
import MethodResolution.Proofs.NamespaceUpdate
import MethodResolution.Proofs.Visibility
import Mathlib.Data.List.Nodup

namespace MethodResolution

namespace NamespaceTree

open Relation (ReflTransGen)

variable {t : NamespaceTree}

/-! ## Growing a tree -/

/-- One step of making a tree. -/
inductive Growth where
  /-- Create what is missing of a path. -/
  | path (path : List String)
  /-- Create a scope inside another one, if it is missing. -/
  | child (node : Nat) (name : String)
  | import_ (node target : Nat)
  /-- Declare a function in the namespace of a path. -/
  | function (path : List String) (name : String) (key : Key)
  deriving DecidableEq, Repr

def grow (t : NamespaceTree) : Growth → NamespaceTree
  | .path path => (t.pathOrNew path).2
  | .child node name => (t.childOrNew node name).2
  | .import_ node target => t.addImport node target
  | .function path name key => t.addFunction path name key

/-- The tree after a list of steps. -/
def grown (gs : List Growth) : NamespaceTree := gs.foldl grow empty

/-- The root lies in no other scope, and all imports exist. -/
structure Rooted (t : NamespaceTree) : Prop where
  size_pos : 0 < t.size
  parent?_root : t.parent? root = none
  import_lt : ∀ n, ∀ m ∈ t.importsOf n, m < t.size

theorem rooted_empty : empty.Rooted where
  size_pos := Nat.one_pos
  parent?_root := rfl
  import_lt n m hm := by
    cases n with
    | zero => cases hm
    | succ n => cases hm

theorem Rooted.withChild (h : t.Rooted) (node : Nat) (name : String) :
    (t.withChild node name).Rooted where
  size_pos := by
    rw [size_withChild]
    omega
  parent?_root := by
    have hroot : (t.withChild node name).scopes[root]? = t.scopes[root]? :=
      List.getElem?_append_left h.size_pos
    rw [parent?, hroot]
    exact h.parent?_root
  import_lt n m hm := by
    rw [importsOf_withChild] at hm
    rw [size_withChild]
    exact Nat.lt_succ_of_lt (h.import_lt n m hm)

/-- A scope that is changed stays where it is and imports what exists. -/
theorem Rooted.update (h : t.Rooted) {node : Nat} {f : Scope → Scope}
    (hparent : ∀ s, (f s).parent = s.parent)
    (himports : ∀ s, ∀ m ∈ (f s).imports, m ∈ s.imports ∨ m < t.size) :
    (t.update node f).Rooted where
  size_pos := by
    rw [size_update]
    exact h.size_pos
  parent?_root := by
    rw [parent?, getElem?_update]
    split_ifs
    · rw [Option.bind_map]
      simpa only [Function.comp_def, hparent, parent?] using h.parent?_root
    · exact h.parent?_root
  import_lt n m hm := by
    rw [size_update]
    rw [importsOf, getElem?_update] at hm
    cases hs : t.scopes[n]? with
    | none => simp [hs] at hm
    | some s =>
      have hold : m ∈ s.imports → m < t.size := fun hmem =>
        h.import_lt n m (by rwa [importsOf, hs])
      rw [hs] at hm
      split_ifs at hm
      · exact (himports s m hm).elim hold id
      · exact hold hm

theorem Rooted.childOrNew (h : t.Rooted) (node : Nat) (name : String) :
    (t.childOrNew node name).2.Rooted := by
  rw [NamespaceTree.childOrNew]
  split
  · exact h
  · split_ifs
    · exact h.withChild node name
    · exact h

theorem Rooted.pathOrNewFrom (h : t.Rooted) (node : Nat) (path : List String) :
    (t.pathOrNewFrom node path).2.Rooted := by
  induction path generalizing t node with
  | nil => exact h
  | cons name rest ih => exact ih (h.childOrNew node name) _

theorem Rooted.grow (h : t.Rooted) (g : Growth) : (t.grow g).Rooted := by
  cases g with
  | path path => exact h.pathOrNewFrom root path
  | child node name => exact h.childOrNew node name
  | import_ node target =>
    rw [NamespaceTree.grow, addImport]
    split_ifs with htarget
    · refine h.update (addImport_parent target) fun s m hm => ?_
      rcases Scope.mem_imports_addImport.1 hm with hm | rfl
      · exact Or.inl hm
      · exact Or.inr htarget
    · exact h
  | function path name key =>
    exact (h.pathOrNewFrom root path).update (f := (·.declare name key)) (fun _ => rfl)
      fun _ _ hm => Or.inl hm

theorem rooted_grown (gs : List Growth) : (grown gs).Rooted := by
  induction gs using List.reverseRecOn with
  | nil => exact rooted_empty
  | append_singleton gs g ih =>
    rw [grown, List.foldl_append]
    exact ih.grow g

/-! ## Going up -/

/-- Going from a scope to the one around it ends, and the scopes `ms` are met. -/
inductive Ascends (t : NamespaceTree) : Nat → List Nat → Prop
  | root {n : Nat} : t.parent? n = none → Ascends t n [n]
  | up {n m : Nat} {ms : List Nat} : t.parent? n = some m → Ascends t m ms →
      Ascends t n (n :: ms)

theorem Ascends.unique {n : Nat} {ms ms' : List Nat} (h : t.Ascends n ms) (h' : t.Ascends n ms') :
    ms = ms' := by
  induction h generalizing ms' with
  | root hnone =>
    cases h' with
    | root _ => rfl
    | up hsome _ => cases hnone.symm.trans hsome
  | up hsome _ ih =>
    cases h' with
    | root hnone => cases hsome.symm.trans hnone
    | up hsome' h' =>
      cases hsome.symm.trans hsome'
      rw [ih h']

/-- From `node`, the longest prefix of the path that exists leads to `n`. -/
def Innermost (t : NamespaceTree) (node : Nat) (path : List String) (n : Nat) : Prop :=
  ∃ p, p <+: path ∧ t.pathFrom? node p = some n ∧
    ∀ q, q <+: path → (t.pathFrom? node q).isSome → q <+: p

theorem scope_of_child? {node child : Nat} {name : String} (h : t.child? node name = some child) :
    ∃ s, t.scopes[child]? = some s ∧ s.parent = some node ∧ s.name = name := by
  obtain ⟨hlt, hscope, -⟩ := List.findIdx?_eq_some_iff_getElem.1 h
  obtain ⟨hparent, hname⟩ := Bool.and_eq_true_iff.1 hscope
  exact ⟨_, List.getElem?_eq_getElem hlt, eq_of_beq hparent, eq_of_beq hname⟩

theorem parent?_of_child? {node child : Nat} {name : String}
    (h : t.child? node name = some child) : t.parent? child = some node := by
  obtain ⟨s, hs, hparent, -⟩ := scope_of_child? h
  rw [parent?, hs, Option.bind_some, hparent]

/-- The way up from the end of a path is the way down to it. -/
theorem ascends_along {node : Nat} {above : List Nat} (h : t.Ascends node above)
    (path : List String) : ∃ n below, t.Innermost node path n ∧
      t.along node path = node :: below ∧ t.Ascends n (below.reverse ++ above) := by
  induction path generalizing node above with
  | nil =>
    refine ⟨node, [], ⟨[], List.nil_prefix, rfl, fun q hq _ => ?_⟩, rfl, h⟩
    exact hq
  | cons name path ih =>
    rw [along]
    cases hchild : t.child? node name with
    | none =>
      refine ⟨node, [], ⟨[], List.nil_prefix, rfl, fun q hq hsome => ?_⟩, rfl, h⟩
      cases q with
      | nil => exact List.nil_prefix
      | cons x q =>
        obtain ⟨rfl, -⟩ := List.cons_prefix_cons.1 hq
        rw [pathFrom?, hchild] at hsome
        cases hsome
    | some child =>
      obtain ⟨n, below, ⟨p, hp, hn, hlongest⟩, halong, hup⟩ :=
        ih (.up (parent?_of_child? hchild) h)
      refine ⟨n, child :: below, ⟨name :: p, List.cons_prefix_cons.2 ⟨rfl, hp⟩, ?_,
        fun q hq hsome => ?_⟩, congrArg _ halong, ?_⟩
      · rw [pathFrom?, hchild]
        exact hn
      · cases q with
        | nil => exact List.nil_prefix
        | cons x q =>
          obtain ⟨rfl, hrest⟩ := List.cons_prefix_cons.1 hq
          rw [pathFrom?, hchild] at hsome
          exact List.cons_prefix_cons.2 ⟨rfl, hlongest q hrest hsome⟩
      · rw [List.reverse_cons, List.append_assoc]
        exact hup

/-! ## Searching -/

/-- Taking one node after the other off a stack, passing over those that have
    been visited and putting the successors of all others on top, ends with an
    empty stack, and the nodes `found` are visited in this order. -/
inductive Searches (next : Nat → List Nat) : List Nat → List Nat → List Nat → Prop
  | done {visited : List Nat} : Searches next visited [] []
  | skip {n : Nat} {visited stack found : List Nat} : n ∈ visited →
      Searches next visited stack found → Searches next visited (n :: stack) found
  | visit {n : Nat} {visited stack found : List Nat} : n ∉ visited →
      Searches next (n :: visited) (next n ++ stack) found →
      Searches next visited (n :: stack) (n :: found)

section
variable {next : Nat → List Nat} {visited stack found found' remaining pending : List Nat}
  {steps : Nat}

theorem Searches.unique (h : Searches next visited stack found)
    (h' : Searches next visited stack found') : found = found' := by
  induction h generalizing found' with
  | done => cases h'; rfl
  | skip hvisited _ ih =>
    cases h' with
    | skip _ h' => exact ih h'
    | visit hnew _ => exact absurd hvisited hnew
  | visit hnew _ ih =>
    cases h' with
    | skip hvisited _ => exact absurd hvisited hnew
    | visit _ h' => rw [ih h']

/-- A search takes no notice of pending nodes that do not remain. -/
theorem explore_filter : explore next steps remaining (pending.filter (· ∈ remaining)) =
    explore next steps remaining pending := by
  induction steps generalizing remaining pending with
  | zero => rfl
  | succ steps ih =>
    have hfind : (pending.filter (· ∈ remaining)).find? (· ∈ remaining) =
        pending.find? (· ∈ remaining) := by
      rw [List.find?_filter]
      simp only [and_self, decide_eq_true_eq]
    rw [explore, explore, hfind]
    cases pending.find? (· ∈ remaining) with
    | none => rfl
    | some node =>
      have herase : ∀ m, decide (m ∈ remaining.erase node) =
          (decide (m ∈ remaining.erase node) && decide (m ∈ remaining)) := by
        intro m
        by_cases hm : m ∈ remaining.erase node
        · simp [hm, List.mem_of_mem_erase hm]
        · simp [hm]
      have hpending : (next node ++ pending.filter (· ∈ remaining)).filter
          (· ∈ remaining.erase node) =
            (next node ++ pending).filter (· ∈ remaining.erase node) := by
        rw [List.filter_append, List.filter_append, List.filter_filter]
        simp only [← herase]
      dsimp only
      rw [← ih, hpending, ih]

theorem explore_cons_of_not_mem {n : Nat} (hn : n ∉ remaining) :
    explore next steps remaining (n :: pending) = explore next steps remaining pending := by
  rw [← explore_filter, List.filter_cons_of_neg (by simpa using hn), explore_filter]

theorem explore_cons_of_mem {n : Nat} (hnodup : remaining.Nodup) (hn : n ∈ remaining) :
    explore next (steps + 1) remaining (n :: pending) =
      n :: explore next steps (remaining.erase n) (next n ++ pending) := by
  have hgone : n ∉ remaining.erase n := hnodup.not_mem_erase
  rw [explore, List.find?_cons_of_pos (by simpa using hn)]
  dsimp only
  rw [← explore_filter, List.filter_append, List.filter_cons_of_neg (by simpa using hgone),
    ← List.filter_append, explore_filter]

/-- **The search ends**, having visited what exploring lists.  Every visit takes
    a node out of those that remain; between two visits the stack shrinks. -/
theorem searches_explore (hlength : remaining.length ≤ steps) (hnodup : remaining.Nodup)
    (hvisited : ∀ n ∈ visited, n ∉ remaining)
    (hstack : ∀ n ∈ stack, n ∈ remaining ∨ n ∈ visited)
    (hnext : ∀ n, ∀ m ∈ next n, m ∈ remaining ∨ m ∈ visited) :
    Searches next visited stack (explore next steps remaining stack) := by
  induction steps generalizing remaining visited stack with
  | zero =>
    have hnil : remaining = [] := List.length_eq_zero_iff.1 (Nat.le_zero.1 hlength)
    subst hnil
    rw [explore]
    induction stack with
    | nil => exact .done
    | cons n stack ih =>
      obtain ⟨hn, hstack⟩ := List.forall_mem_cons.1 hstack
      exact .skip (hn.resolve_left List.not_mem_nil) (ih hstack)
  | succ steps ih =>
    induction stack with
    | nil => exact .done
    | cons n stack ihstack =>
      obtain ⟨hn, hstack⟩ := List.forall_mem_cons.1 hstack
      by_cases hmem : n ∈ remaining
      · have hnew : n ∉ visited := fun h => hvisited n h hmem
        have hgone : n ∉ remaining.erase n := hnodup.not_mem_erase
        have hmoved : ∀ m, m ∈ remaining ∨ m ∈ visited →
            m ∈ remaining.erase n ∨ m ∈ n :: visited := by
          intro m hm
          by_cases hne : m = n
          · exact Or.inr (hne ▸ List.mem_cons_self)
          · exact hm.imp (List.mem_erase_of_ne hne).2 (List.mem_cons_of_mem n)
        rw [explore_cons_of_mem hnodup hmem]
        refine .visit hnew (ih ?_ (hnodup.erase n) ?_ ?_ fun k m hm => hmoved m (hnext k m hm))
        · rw [List.length_erase_of_mem hmem]
          omega
        · refine List.forall_mem_cons.2 ⟨hgone, fun m hm hrest => ?_⟩
          exact hvisited m hm (List.mem_of_mem_erase hrest)
        · intro m hm
          rcases List.mem_append.1 hm with hm | hm
          · exact hmoved m (hnext n m hm)
          · exact hmoved m (hstack m hm)
      · rw [explore_cons_of_not_mem hmem]
        exact .skip (hn.resolve_left hmem) (ihstack hstack)

end

/-! ## Looking up a name -/

/-- The scope `m` imports the scope `n`. -/
def Imports (t : NamespaceTree) (m n : Nat) : Prop := n ∈ t.importsOf m

/-- Looking up a name from a path meets `scopes` on the way up, searches the
    scopes `found`, and finds what these declare under the name. -/
structure LooksUp (t : NamespaceTree) (path : List String) (name : String)
    (scopes found : List Nat) : Prop where
  /-- The way up starts at the end of what exists of the path, and it ends. -/
  ascends_iff : ∃ n, t.Innermost root path n ∧ ∀ ms, t.Ascends n ms ↔ ms = scopes
  getLast?_eq : scopes.getLast? = some root
  /-- The search starts with the outermost scope, and it ends. -/
  searches_iff : ∀ ns, Searches t.importsOf [] scopes.reverse ns ↔ ns = found
  visible_eq : t.visible path name = (found.flatMap (t.overloadsIn · name)).eraseDups
  nodup : (t.visible path name).Nodup
  /-- It finds what can be reached by imports. -/
  mem_iff : ∀ key, key ∈ t.visible path name ↔
    ∃ m ∈ scopes, ∃ n, ReflTransGen t.Imports m n ∧ key ∈ t.overloadsIn n name

section
variable (h : t.Rooted)
include h

theorem Rooted.along_lt {path : List String} {n : Nat} (hn : n ∈ t.along root path) :
    n < t.size := by
  obtain ⟨p, -, hp⟩ := (mem_along root path n).1 hn
  exact path?_lt h.size_pos hp

theorem Rooted.reflTransGen_iff {m n : Nat} :
    ReflTransGen (Step t.importsOf (List.range t.size)) m n ↔ ReflTransGen t.Imports m n := by
  have hstep : Step t.importsOf (List.range t.size) = t.Imports := by
    funext a b
    exact propext (and_iff_left_of_imp fun hb => List.mem_range.2 (h.import_lt a b hb))
  rw [hstep]

theorem Rooted.mem_inSight (path : List String) (n : Nat) :
    n ∈ t.inSight path ↔ ∃ m ∈ t.along root path, ReflTransGen t.Imports m n := by
  rw [inSight, mem_explore (by simp)]
  refine exists_congr fun m => and_congr_right fun hm => ?_
  rw [h.reflTransGen_iff]
  exact and_iff_right (List.mem_range.2 (h.along_lt hm))

theorem Rooted.searches_inSight (path : List String) :
    Searches t.importsOf [] (t.along root path) (t.inSight path) := by
  refine searches_explore (by simp) List.nodup_range (by simp) (fun n hn => ?_) fun n m hm => ?_
  · exact Or.inl (List.mem_range.2 (h.along_lt hn))
  · exact Or.inl (List.mem_range.2 (h.import_lt n m hm))

end

/-- **A lookup ends, and finds what can be reached** from the scopes around a
    path by any number of imports, each function once: in every tree that can be
    made, with imports in circles or not. -/
theorem looksUp_grown (gs : List Growth) (path : List String) (name : String) :
    ∃ scopes found, (grown gs).LooksUp path name scopes found := by
  have h := rooted_grown gs
  generalize grown gs = t at h
  obtain ⟨n, below, hn, halong, hup⟩ := ascends_along (.root h.parent?_root) path
  have hreverse : (below.reverse ++ [root]).reverse = t.along root path := by
    rw [halong, List.reverse_append, List.reverse_reverse, List.reverse_singleton,
      List.singleton_append]
  have hsearches := h.searches_inSight path
  refine ⟨below.reverse ++ [root], t.inSight path,
    ⟨⟨n, hn, fun ms => ?_⟩, List.getLast?_concat, fun ns => ?_, rfl, nodup_eraseDups _,
      fun key => ?_⟩⟩
  · exact ⟨fun hms => hms.unique hup, fun hms => hms ▸ hup⟩
  · rw [hreverse]
    exact ⟨fun hns => hns.unique hsearches, fun hns => hns ▸ hsearches⟩
  · rw [visible, List.mem_eraseDups, List.mem_flatMap]
    simp only [h.mem_inSight, ← hreverse, List.mem_reverse]
    constructor
    · rintro ⟨n, ⟨m, hm, hreach⟩, hkey⟩
      exact ⟨m, hm, n, hreach, hkey⟩
    · rintro ⟨m, hm, n, hreach, hkey⟩
      exact ⟨n, ⟨m, hm, hreach⟩, hkey⟩

/-- Two namespaces that import each other, one of them itself and one of them
    the root. -/
example :
    (grown [.path ["A", "B"], .path ["C"], .import_ 2 3, .import_ 3 2, .import_ 3 3, .import_ 2 0,
      .function ["C"] "f" ⟨7⟩, .function [] "f" ⟨8⟩]).visible ["A", "B", "D"] "f" =
      [⟨8⟩, ⟨7⟩] := by decide

end NamespaceTree

end MethodResolution
