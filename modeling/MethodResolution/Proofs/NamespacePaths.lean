/-
  Method resolution — the namespaces are a tree of paths.

  Edges of two kinds run between scopes: a scope contains others, each under a
  name, and it uses those that it imports.  Lookups go along the first edge that
  fits.  Imports may run in circles, but what contains what is a tree, for every
  scope is put inside one that exists already and under a name that is free
  there.

  * `Edge`, `Leads`: the edges, and the paths along those that contain;
  * `child?_eq_some_iff`, `path?_eq_some_iff`: a lookup finds what an edge or a
    path leads to, whichever edge comes first;
  * `WellFormed.grow`, `WellFormed.after`: steps that name existing scopes keep
    the tree well formed and every path where it leads;
  * `pathTree_grown`: so scopes and paths belong to each other one by one, in
    every tree that can be made, and a path that was made once is found for good.
-/
import MethodResolution.Proofs.NamespaceLookup

namespace MethodResolution

namespace NamespaceTree

variable {t : NamespaceTree} {m m' n : Nat} {x y : String} {p : List String} {g : Growth}
  {gs : List Growth}

/-! ## Edges and paths -/

/-- What an edge from one scope to another says. -/
inductive Link where
  | contains (name : String)
  | uses
  deriving DecidableEq, Repr

/-- The edges of a tree. -/
def Edge (t : NamespaceTree) (m : Nat) : Link → Nat → Prop
  | .contains x, n => ∃ s, t.scopes[n]? = some s ∧ s.parent = some m ∧ s.name = x
  | .uses, n => n ∈ t.importsOf m

/-- A path leads from the root along edges that contain. -/
inductive Leads (t : NamespaceTree) : List String → Nat → Prop
  | root : Leads t [] root
  | inside {p : List String} {m n : Nat} {x : String} : Leads t p m → t.Edge m (.contains x) n →
      Leads t (p ++ [x]) n

theorem edge_of_child? (h : t.child? m x = some n) : t.Edge m (.contains x) n :=
  scope_of_child? h

theorem parent?_eq_some_iff : t.parent? n = some m ↔ ∃ x, t.Edge m (.contains x) n := by
  rw [parent?, Option.bind_eq_some_iff]
  constructor
  · rintro ⟨s, hs, hparent⟩
    exact ⟨s.name, s, hs, hparent, rfl⟩
  · rintro ⟨x, s, hs, hparent, -⟩
    exact ⟨s, hs, hparent⟩

/-- A scope is contained in one place only. -/
theorem Edge.unique (h : t.Edge m (.contains x) n) (h' : t.Edge m' (.contains y) n) :
    m = m' ∧ x = y := by
  obtain ⟨s, hs, hparent, hname⟩ := h
  obtain ⟨s', hs', hparent', hname'⟩ := h'
  cases hs.symm.trans hs'
  exact ⟨Option.some.inj (hparent.symm.trans hparent'), hname.symm.trans hname'⟩

/-! ## Well-formed trees -/

namespace WellFormed

section
variable (h : t.WellFormed)
include h

theorem edge_lt {l : Link} (he : t.Edge m l n) : m < t.size ∧ n < t.size := by
  cases l with
  | contains x =>
    obtain ⟨s, hs, hparent, -⟩ := he
    exact ⟨h.parent_lt s (List.mem_of_getElem? hs) m hparent,
      (List.getElem?_eq_some_iff.1 hs).1⟩
  | uses =>
    refine ⟨by_contra fun hm => ?_, importsOf_lt h he⟩
    rw [Edge, importsOf, List.getElem?_eq_none (Nat.le_of_not_lt hm)] at he
    cases he

/-- **A lookup finds what the edge leads to.**  No other edge could come first,
    for the scope has a path, which ends with an edge that was found. -/
theorem child?_eq_some_iff : t.child? m x = some n ↔ t.Edge m (.contains x) n := by
  refine ⟨edge_of_child?, fun he => ?_⟩
  obtain ⟨p, hp⟩ := h.path_of_lt n (h.edge_lt he).2
  induction p using List.reverseRecOn with
  | nil =>
    -- The root comes before all other scopes.
    cases hp
    obtain ⟨s, hs, hparent, hname⟩ := he
    obtain ⟨hlt, hroot⟩ := List.getElem?_eq_some_iff.1 hs
    rw [child?, List.findIdx?_eq_some_iff_getElem]
    exact ⟨hlt, by simp [hroot, hparent, hname], fun j hj => absurd hj (Nat.not_lt_zero j)⟩
  | append_singleton p y _ =>
    rw [path?_concat] at hp
    obtain ⟨m', -, hchild⟩ := Option.bind_eq_some_iff.1 hp
    obtain ⟨rfl, rfl⟩ := he.unique (edge_of_child? hchild)
    exact hchild

/-- **A path is found where it leads.** -/
theorem path?_eq_some_iff : t.path? p = some n ↔ t.Leads p n := by
  constructor
  · intro hp
    induction p using List.reverseRecOn generalizing n with
    | nil =>
      cases hp
      exact .root
    | append_singleton p x ih =>
      rw [path?_concat] at hp
      obtain ⟨m, hm, hchild⟩ := Option.bind_eq_some_iff.1 hp
      exact .inside (ih hm) (edge_of_child? hchild)
  · intro hleads
    induction hleads with
    | root => rfl
    | inside _ he ih => rw [path?_concat, ih, Option.bind_some, h.child?_eq_some_iff.2 he]

theorem existsUnique_leads (hn : n < t.size) : ∃! p, t.Leads p n := by
  obtain ⟨p, hp⟩ := h.path_of_lt n hn
  refine ⟨p, h.path?_eq_some_iff.1 hp, fun q hq => ?_⟩
  exact h.path_inj q p n (h.path?_eq_some_iff.2 hq) hp

/-- Nothing contains the root: a path to it would go on behind its end. -/
theorem not_edge_root : ¬ t.Edge m (.contains x) root := by
  intro he
  obtain ⟨p, hp⟩ := h.path_of_lt m (h.edge_lt he).1
  have hback : t.path? (p ++ [x]) = some root := by
    rw [path?_concat, hp, Option.bind_some, h.child?_eq_some_iff.2 he]
  exact List.append_ne_nil_of_right_ne_nil p (List.cons_ne_nil x [])
    (h.path_inj _ [] root hback rfl)

theorem existsUnique_container (hn : n < t.size) (hroot : n ≠ root) :
    ∃! c : Nat × String, t.Edge c.1 (.contains c.2) n := by
  obtain ⟨p, hleads, -⟩ := h.existsUnique_leads hn
  cases hleads with
  | root => exact absurd rfl hroot
  | inside _ he => exact ⟨⟨_, _⟩, he, fun c hc => Prod.ext_iff.2 (hc.unique he)⟩

/-- Going up from the end of a path, the root is reached. -/
theorem ascends (hn : n < t.size) : ∃ ms, t.Ascends n ms ∧ ms.getLast? = some root := by
  obtain ⟨p, hleads, -⟩ := h.existsUnique_leads hn
  clear hn
  induction hleads with
  | root =>
    refine ⟨[root], .root (Option.eq_none_iff_forall_ne_some.2 fun m hm => ?_), rfl⟩
    obtain ⟨x, he⟩ := parent?_eq_some_iff.1 hm
    exact h.not_edge_root he
  | @inside _ m n x _ he ih =>
    obtain ⟨ms, hms, hlast⟩ := ih
    refine ⟨n :: ms, .up (parent?_eq_some_iff.2 ⟨x, he⟩) hms, ?_⟩
    rw [List.getLast?_cons, hlast]
    rfl

end

end WellFormed

/-! ## Steps -/

/-- What a step names by number exists. -/
def Growth.Fits (t : NamespaceTree) : Growth → Prop
  | .child node _ => node < t.size
  | .import_ node target => node < t.size ∧ target < t.size
  | .path _ | .function _ _ _ => True

instance (t : NamespaceTree) : DecidablePred (Growth.Fits t)
  | .child node _ => inferInstanceAs (Decidable (node < t.size))
  | .import_ node target => inferInstanceAs (Decidable (node < t.size ∧ target < t.size))
  | .path _ | .function _ _ _ => .isTrue trivial

/-- Every step of the list names existing scopes when its turn comes. -/
def InOrder (t : NamespaceTree) : List Growth → Prop
  | [] => True
  | g :: gs => g.Fits t ∧ (t.grow g).InOrder gs

/-- The tree after further steps. -/
def after (t : NamespaceTree) (gs : List Growth) : NamespaceTree := gs.foldl grow t

theorem childOrNew_cases (hm : m < t.size) (x : String) :
    (∃ n, t.child? m x = some n ∧ t.childOrNew m x = (n, t)) ∨
      t.child? m x = none ∧ t.childOrNew m x = (t.size, t.withChild m x) := by
  rw [childOrNew]
  cases t.child? m x with
  | some n => exact Or.inl ⟨n, rfl, rfl⟩
  | none => exact Or.inr ⟨rfl, if_pos (Nat.le_of_lt hm)⟩

/-- **A step keeps every path**, and the tree well formed. -/
theorem WellFormed.grow (h : t.WellFormed) (hg : g.Fits t) : (t.grow g).WellFormed ∧
    ∀ p n, t.path? p = some n → (t.grow g).path? p = some n := by
  cases g with
  | path path =>
    have hcreated := created_pathOrNew h path
    exact ⟨hcreated.wellFormed, hcreated.path?_mono⟩
  | child m x =>
    rw [NamespaceTree.grow]
    rcases childOrNew_cases hg x with ⟨n, -, heq⟩ | ⟨hnew, heq⟩
    · rw [heq]
      exact ⟨h, fun _ _ hp => hp⟩
    · rw [heq]
      obtain ⟨q, hq⟩ := h.path_of_lt m hg
      refine ⟨wellFormed_withChild h hq hnew, fun p n hp => ?_⟩
      rw [path?_withChild h hq hnew, if_neg, hp]
      rintro rfl
      rw [path?_concat, hq, Option.bind_some, hnew] at hp
      cases hp
  | import_ node target =>
    have heq : t.grow (.import_ node target) = t.update node (·.addImport target) := if_pos hg.2
    rw [heq, path?_update (addImport_parent target) (addImport_name target)]
    refine ⟨wellFormed_update (addImport_parent target) (addImport_name target) h
      fun s hs k hk => ?_, fun _ _ hp => hp⟩
    rcases Scope.mem_imports_addImport.1 hk with hk | rfl
    · exact h.import_lt s hs k hk
    · exact hg.2
  | function path name key =>
    have hcreated := created_pathOrNew h path
    have hpath : (t.addFunction path name key).path? = (t.pathOrNew path).2.path? :=
      path?_update (f := (·.declare name key)) (fun _ => rfl) fun _ => rfl
    refine ⟨wellFormed_addFunction h path name key, ?_⟩
    rw [NamespaceTree.grow, hpath]
    exact hcreated.path?_mono

theorem WellFormed.after (h : t.WellFormed) (hgs : t.InOrder gs) : (t.after gs).WellFormed ∧
    ∀ p n, t.path? p = some n → (t.after gs).path? p = some n := by
  induction gs generalizing t with
  | nil => exact ⟨h, fun _ _ hp => hp⟩
  | cons g gs ih =>
    obtain ⟨hg, hrest⟩ := hgs
    obtain ⟨hgrow, hkept⟩ := h.grow hg
    obtain ⟨hafter, hkept'⟩ := ih hgrow hrest
    exact ⟨hafter, fun p n hp => hkept' p n (hkept p n hp)⟩

/-! ## Making a path -/

/-- Nothing is made of a path that exists. -/
theorem pathOrNewFrom_eq_self {node : Nat} (h : t.pathFrom? node p = some n) :
    t.pathOrNewFrom node p = (n, t) := by
  induction p generalizing node with
  | nil =>
    cases h
    rfl
  | cons x p ih =>
    rw [pathFrom?] at h
    obtain ⟨child, hchild, hrest⟩ := Option.bind_eq_some_iff.1 h
    rw [pathOrNewFrom, childOrNew, hchild]
    exact ih hrest

/-- What is made is put behind what exists. -/
theorem scopes_isPrefix_pathOrNewFrom (t : NamespaceTree) (node : Nat) (p : List String) :
    t.scopes <+: (t.pathOrNewFrom node p).2.scopes := by
  induction p generalizing t node with
  | nil => exact List.prefix_rfl
  | cons x p ih =>
    refine List.IsPrefix.trans ?_ (ih (t.childOrNew node x).2 _)
    rw [childOrNew]
    cases t.child? node x with
    | some _ => exact List.prefix_rfl
    | none =>
      dsimp only
      split_ifs
      · exact List.prefix_append _ _
      · exact List.prefix_rfl

/-- Making the path `p` gives the scope `out.1` and leaves the tree `out.2`, which
    has what was missing of the path and otherwise is as `t` is. -/
structure Makes (t : NamespaceTree) (p : List String) (out : Nat × NamespaceTree) : Prop where
  /-- The scopes of `t` stay as they are, and where their paths lead. -/
  kept : t.scopes <+: out.2.scopes
  path?_mono : ∀ q n, t.path? q = some n → out.2.path? q = some n
  has_iff : ∀ q, (out.2.path? q).isSome ↔ (t.path? q).isSome ∨ q <+: p
  /-- The new scopes are those of the paths that were missing. -/
  new_iff : ∀ q n, out.2.path? q = some n → (t.size ≤ n ↔ t.path? q = none)
  /-- Whatever happens later, the path leads to the same scope, and nothing more
      is made of it. -/
  again : ∀ later, out.2.InOrder later → (out.2.after later).path? p = some out.1 ∧
    (out.2.after later).pathOrNew p = (out.1, out.2.after later)

theorem WellFormed.makes (h : t.WellFormed) (p : List String) : t.Makes p (t.pathOrNew p) := by
  have hcreated := created_pathOrNew h p
  refine ⟨scopes_isPrefix_pathOrNewFrom t root p, hcreated.path?_mono, fun q => ?_,
    fun q n hq => ⟨fun hn => ?_, fun hq' => ?_⟩, fun later hlater => ?_⟩
  · have hhas := congrFun (congrArg View.has hcreated.view_eq) q
    simp only [view, View.create, ← Option.isSome_iff_exists] at hhas
    rw [hhas]
  · refine Option.eq_none_iff_forall_ne_some.2 fun k hk => Nat.not_lt_of_le hn ?_
    cases (hcreated.path?_mono q k hk).symm.trans hq
    exact path?_lt h.size_pos hk
  · -- A scope that existed has the path that it had.
    refine Nat.le_of_not_lt fun hn => ?_
    obtain ⟨q', hold⟩ := h.path_of_lt n hn
    rw [hcreated.wellFormed.path_inj q q' n hq (hcreated.path?_mono q' n hold), hold] at hq'
    cases hq'
  · have hfound := (hcreated.wellFormed.after hlater).2 p _ hcreated.path?_eq
    exact ⟨hfound, pathOrNewFrom_eq_self hfound⟩

/-! ## All trees -/

/-- What contains what is a tree, and its scopes and its paths belong to each
    other one by one. -/
structure PathTree (t : NamespaceTree) : Prop where
  edge_lt : ∀ m l n, t.Edge m l n → m < t.size ∧ n < t.size
  not_edge_root : ∀ m x, ¬ t.Edge m (.contains x) root
  existsUnique_container : ∀ n < t.size, n ≠ root →
    ∃! c : Nat × String, t.Edge c.1 (.contains c.2) n
  /-- Scopes in one scope have different names. -/
  eq_of_siblings : ∀ m x n n', t.Edge m (.contains x) n → t.Edge m (.contains x) n' → n = n'
  existsUnique_path : ∀ n < t.size, ∃! p, t.Leads p n
  /-- Lookups read the edges that contain and no others. -/
  child?_iff : ∀ m x n, t.child? m x = some n ↔ t.Edge m (.contains x) n
  parent?_iff : ∀ n m, t.parent? n = some m ↔ ∃ x, t.Edge m (.contains x) n
  path?_iff : ∀ p n, t.path? p = some n ↔ t.Leads p n
  /-- A scope that is found or created lies where it was asked for. -/
  parent?_child : ∀ m < t.size, ∀ x n t', t.childOrNew m x = (n, t') →
    t'.Edge m (.contains x) n ∧ t'.parent? n = some m
  /-- The way up ends at the root. -/
  ascends : ∀ n < t.size, ∃ ms, t.Ascends n ms ∧ ms.getLast? = some root
  makes : ∀ p, t.Makes p (t.pathOrNew p)

theorem edge_childOrNew (hm : m < t.size) (x : String) :
    (t.childOrNew m x).2.Edge m (.contains x) (t.childOrNew m x).1 := by
  rcases childOrNew_cases hm x with ⟨n, hchild, heq⟩ | ⟨hnew, heq⟩
  · rw [heq]
    exact edge_of_child? hchild
  · rw [heq]
    refine edge_of_child? ?_
    rw [child?_withChild, hnew, if_pos ⟨rfl, rfl⟩, Option.none_or]

theorem WellFormed.pathTree (h : t.WellFormed) : t.PathTree where
  edge_lt _ _ _ := h.edge_lt
  not_edge_root _ _ := h.not_edge_root
  existsUnique_container _ hn hroot := h.existsUnique_container hn hroot
  eq_of_siblings _ _ _ _ hn hn' :=
    Option.some.inj ((h.child?_eq_some_iff.2 hn).symm.trans (h.child?_eq_some_iff.2 hn'))
  existsUnique_path _ hn := h.existsUnique_leads hn
  child?_iff _ _ _ := h.child?_eq_some_iff
  parent?_iff _ _ := parent?_eq_some_iff
  path?_iff _ _ := h.path?_eq_some_iff
  parent?_child m hm x n t' heq := by
    have he := edge_childOrNew hm x
    rw [heq] at he
    exact ⟨he, parent?_eq_some_iff.2 ⟨x, he⟩⟩
  ascends _ hn := h.ascends hn
  makes p := h.makes p

/-- **The namespaces are a tree of paths**, in whatever order paths and scopes are
    made, functions declared and scopes imported. -/
theorem pathTree_grown (gs : List Growth) (hgs : empty.InOrder gs) : (grown gs).PathTree :=
  (wellFormed_empty.after hgs).1.pathTree

/-- One namespace inside another, which imports it and is imported by it. -/
def crossedPaths : List Growth :=
  [.path ["A"], .child 1 "B", .import_ 1 2, .import_ 2 1, .function ["A", "C"] "f" ⟨7⟩]

theorem crossedPaths_pathTree : empty.InOrder crossedPaths ∧ (grown crossedPaths).size = 4 ∧
    (grown crossedPaths).Leads ["A", "B"] 2 ∧ (grown crossedPaths).PathTree := by
  have hgs : empty.InOrder crossedPaths :=
    ⟨trivial, by decide, by decide, by decide, trivial, trivial⟩
  have htree := pathTree_grown crossedPaths hgs
  exact ⟨hgs, by decide, (htree.path?_iff _ _).1 (by decide), htree⟩

end NamespaceTree

end MethodResolution
